import ActionKit.Main
import ActionKit.Native.Stock
import ActionKit.Proofs.Composition
import ActionKit.Proofs.Concealment
import ActionKit.Proofs.Construction
import ActionKit.Proofs.Descent
import ActionKit.Proofs.Forest
import ActionKit.Proofs.Groups
import ActionKit.Proofs.Isolation
import ActionKit.Proofs.Kinship
import ActionKit.Proofs.Merging
import ActionKit.Proofs.Numerals
import ActionKit.Proofs.OutputSlot
import ActionKit.Proofs.PartialApplication
import ActionKit.Proofs.Registration
import ActionKit.Proofs.Results
import ActionKit.Proofs.RoundTrip
import ActionKit.Proofs.Tables
import ActionKit.Proofs.Transparency
import ActionKit.Scratch.Script
import ActionKit.Proofs.Twins
import ActionKit.Proofs.Bindings
import ActionKit.Proofs.Interchange
import ActionKit.Proofs.Exactness
import ActionKit.Proofs.Checking
import ActionKit.Proofs.Filling
import ActionKit.Proofs.Omission
import ActionKit.Proofs.ArgumentOrder
import ActionKit.Proofs.Surface
import ActionKit.Proofs.TypeBlocks
import ActionKit.Proofs.Constraints
import ActionKit.Proofs.Redeclaring
import ActionKit.Proofs.Identities
import ActionKit.Proofs.Splitting
import ActionKit.Proofs.Walks
