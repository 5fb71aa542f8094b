import ActionKit.Proofs.Reach

/-!
# What constructions leave behind

A construction that fails leaves a workshop as it was, but for names that it has read. One that
succeeds adds what it has made and nothing else. Either way the scratch area is given back as it
was taken, so that between operations it is empty.

* `Names.Grows`: names are added, and none is changed.
* `Draft.Above`: a draft leaves the scratch area below its region alone.
* `Request`, `Workshop.carryOut`: the operations that construct something, and carrying them out.
* `Request.tables`, `Request.links`: the tables and the links that a request asks for.
* `Workshop.Settles`: all that carrying out a request leaves behind.

Results:
* `read_grows`: reading only adds names, also where it fails.
* `draft_frame`: drafting a table changes nothing but the journal.
* `Reachable.scratch_eq`: between operations the scratch area is empty.
* `carryOut_settles`: a failed construction leaves a workshop as it was, and a successful one adds
  one table, one link or none of them.
-/

namespace ActionKit

/-! ## Reading only adds names -/

/-- Names are added behind all others, and none is changed. -/
def Names.Grows (names more : Names) : Prop := names.spellings <+: more.spellings

namespace Names

theorem Grows.refl (names : Names) : names.Grows names := List.prefix_rfl

theorem Grows.trans {a b c : Names} (hab : a.Grows b) (hbc : b.Grows c) : a.Grows c :=
  List.IsPrefix.trans hab hbc

/-- A symbol keeps its spelling. -/
theorem Grows.resolve? {names more : Names} (h : names.Grows more) {symbol : Symbol}
    {spelling : Bytes} (hs : names.resolve? symbol = some spelling) :
    more.resolve? symbol = some spelling := by
  obtain ⟨added, hadded⟩ := h
  have hlt : symbol.id < names.spellings.length := (List.getElem?_eq_some_iff.mp hs).1
  unfold Names.resolve? at hs ⊢
  rw [← hadded, List.getElem?_append_left hlt]
  exact hs

theorem intern_grows (names : Names) (name : Bytes) : names.Grows (names.intern name).2 := by
  unfold intern
  cases names.find? name with
  | some symbol => exact .refl names
  | none => exact List.prefix_append _ _

end Names

namespace SpecText

variable {types : TypeRegistry} {names more : Names}

theorem Token.value_grows {token : Token} {value : Value}
    (h : token.value types names = .ok (value, more)) : names.Grows more := by
  have interned : ∀ (make : Symbol → Value) (name : List Char),
      Token.interned make name names = (value, more) → names.Grows more := by
    intro make name hinterned
    obtain ⟨-, rfl⟩ := Prod.mk.inj hinterned
    exact names.intern_grows _
  cases token with
  | refinement name => exact interned _ _ (Except.ok.inj h)
  | setWord name => exact interned _ _ (Except.ok.inj h)
  | word name => exact interned _ _ (Except.ok.inj h)
  | literal literal =>
    obtain ⟨-, rfl⟩ := Prod.mk.inj (Except.ok.inj h)
    exact .refl names
  | typeName name =>
    cases hlookup : types.lookup? names (.ofChars name) with
    | none =>
      simp only [Token.value, hlookup] at h
      cases h
    | some term =>
      simp only [Token.value, hlookup] at h
      obtain ⟨-, rfl⟩ := Prod.mk.inj (Except.ok.inj h)
      exact .refl names

theorem runValue_grows {run : List Char} {value : Value}
    (h : runValue types names run = .ok (value, more)) : names.Grows more := by
  unfold runValue at h
  split at h
  · exact Token.value_grows h
  · cases h

/-- Taking a lexeme adds at most its own name. -/
theorem Nest.take_grows {nest next : Nest} {lexeme : Lexeme}
    (h : nest.take types names lexeme = .ok (next, more)) : names.Grows more := by
  unfold Nest.take at h
  split at h
  · obtain ⟨-, rfl⟩ := Prod.mk.inj (Except.ok.inj h)
    exact .refl names
  · split at h
    · obtain ⟨-, rfl⟩ := Prod.mk.inj (Except.ok.inj h)
      exact .refl names
    · cases h
  · obtain ⟨-, rfl⟩ := Prod.mk.inj (Except.ok.inj h)
    exact .refl names
  · split at h
    · next value read hrun =>
      obtain ⟨-, rfl⟩ := Prod.mk.inj (Except.ok.inj h)
      exact runValue_grows hrun
    · cases h

theorem readLexemes_grows (types : TypeRegistry) (stopped : Option Complaint)
    (lexemes : List Lexeme) (nest : Nest) (names : Names) :
    names.Grows (readLexemes types stopped nest names lexemes).2 := by
  induction lexemes generalizing nest names with
  | nil =>
    unfold readLexemes
    cases stopped <;> exact .refl names
  | cons lexeme rest ih =>
    unfold readLexemes
    cases htake : nest.take types names lexeme with
    | error complaint => exact .refl names
    | ok taken => exact (Nest.take_grows htake).trans (ih taken.1 taken.2)

/-- **Reading only adds names**, also where it fails. -/
theorem read_grows (types : TypeRegistry) (names : Names) (text : List Char) :
    names.Grows (read types names text).2 := by
  have hlexemes := readLexemes_grows types (Lexeme.scan 0 text).2 (Lexeme.scan 0 text).1 {} names
  unfold read
  simp only
  split <;> next hread => rwa [hread] at hlexemes

end SpecText

/-! ## Drafts leave what lies below alone -/

namespace Draft

/-- **A draft right above a scratch area**, which it leaves alone. -/
structure Above (scratch : Scratch) (draft : Draft) : Prop where
  base : draft.region.base = scratch.depth
  below : draft.scratch.entries.take draft.region.base = scratch.entries

variable {scratch : Scratch} {draft : Draft}

theorem Above.holds (h : draft.Above scratch) : draft.scratch.Holds draft.region := by
  have hlength := congrArg List.length h.below
  rw [List.length_take] at hlength
  have hbase := h.base
  unfold Scratch.depth at hbase
  unfold Scratch.Holds Scratch.depth
  omega

theorem start_above (scratch : Scratch) : (start scratch).Above scratch where
  base := rfl
  below := by
    show (scratch.enter.2.push .header).entries.take scratch.enter.1.base = _
    rw [Scratch.push_eq_update scratch.enter.1, Scratch.take_update scratch.holds_enter]
    exact List.take_length

theorem Above.withEntries (h : draft.Above scratch) (entries : List Entry) :
    (draft.withEntries entries).Above scratch where
  base := h.base
  below := (Scratch.take_update h.holds _).trans h.below

theorem Above.copy (h : draft.Above scratch) (table : Table) (sealing : Sealing) :
    (draft.copy table sealing).Above scratch := by
  unfold Draft.copy
  exact ⟨h.base, (h.withEntries _).below⟩

/-- What a spec declares stays above, also if the spec is rejected. -/
theorem Above.declare (h : draft.Above scratch) (spec : List Value) (withOutput : Bool) :
    (draft.declare spec withOutput).2.Above scratch := by
  unfold Draft.declare
  simp only
  split
  · exact ⟨h.base, (h.withEntries _).below⟩
  · exact ⟨h.base, (h.withEntries _).below⟩

theorem Above.inherit (h : draft.Above scratch) (description : Option Bytes) :
    (draft.inherit description).Above scratch :=
  ⟨h.base, h.below⟩

theorem Above.fix (h : draft.Above scratch) {name : Symbol} {value : Value} {next : Draft}
    (hf : draft.fix name value = .ok next) : next.Above scratch := by
  unfold Draft.fix at hf
  split at hf
  · cases hf
  · split at hf
    · cases hf
    · obtain rfl := Except.ok.inj hf
      exact h.withEntries _

/-- What is fixed stays above, also if a binding is refused. -/
theorem Above.fixAll (bindings : List (Symbol × Value)) : ∀ {draft : Draft},
    draft.Above scratch → (draft.fixAll bindings).2.Above scratch := by
  induction bindings with
  | nil => exact fun h => h
  | cons pair rest ih =>
    intro draft h
    obtain ⟨name, value⟩ := pair
    unfold Draft.fixAll
    cases hfix : draft.fix name value with
    | error error => exact h
    | ok next => exact ih (h.fix hfix)

/-- A draft that inherits a description after it was filled, unless filling it failed. -/
theorem Above.describe {filled : Except BuildError Unit × Draft} (description : Option Bytes) :
    filled.2.Above scratch →
      (match filled with
        | (.error error, draft) => (.error error, draft)
        | (.ok (), draft) => (.ok (), draft.inherit description) :
        Except BuildError Unit × Draft).2.Above scratch := by
  intro h
  obtain ⟨_ | _, draft⟩ := filled
  · exact h
  · exact h.inherit description

/-- **However a draft ends, the scratch area holds what it held before.** -/
theorem Above.discard (h : draft.Above scratch) : draft.discard.entries = scratch.entries :=
  draft.discard_entries.trans h.below

theorem Above.finish (h : draft.Above scratch) : draft.finish.2.entries = scratch.entries :=
  draft.finish_entries.trans h.below

end Draft

/-! ## Requests -/

/-- The operations that construct something and may fail, with all that they are given. The action
that a derivation starts from may be any action at all. -/
inductive Request where
  | readSpec (text : String)
  | makeNative (function : Native) (words : Option (List (Symbol × Value)))
  | specialize (source : Action) (bindings : List (Symbol × Value))
  | augment (source : Action) (spec : List Value) (label : Option Symbol)
  | makeChecker (descriptor : Value)

namespace Request

/-- How many tables a request asks for. -/
def tables : Request → Nat
  | .makeNative _ _ | .specialize _ _ | .augment _ _ _ => 1
  | .readSpec _ | .makeChecker _ => 0

/-- The links that a request asks for, from the table that it makes. -/
def links (made : TableId) : Request → List (TableId × TableId)
  | .specialize source _ | .augment source _ _ => [(made, source.table.id)]
  | .readSpec _ | .makeNative _ _ | .makeChecker _ => []

/-- Whether a request reads the text of a spec. -/
def reads : Request → Bool
  | .readSpec _ | .makeNative _ _ => true
  | .specialize _ _ | .augment _ _ _ | .makeChecker _ => false

end Request

namespace Workshop

/-- Carry out a request. The answer is the action that was made, if one was asked for. -/
def carryOut (w : Workshop) : Request → Except BuildError (Option Action) × Workshop
  | .readSpec text => (w.readSpec text).map (·.map fun _ => none) id
  | .makeNative function words => (w.makeNative function words).map (·.map some) id
  | .specialize source bindings => (w.specialize source bindings).map (·.map some) id
  | .augment source spec label => (w.augment source spec label).map (·.map some) id
  | .makeChecker descriptor => (w.makeChecker descriptor).map (·.map some) id

/-- **What carrying out a request leaves behind.** -/
structure Settles (w : Workshop) (request : Request) (answer : Except BuildError (Option Action))
    (w' : Workshop) : Prop where
  /-- Names are added behind all others, -/
  names : w.names.Grows w'.names
  /-- every symbol keeps its spelling, -/
  resolved : ∀ symbol spelling, w.names.resolve? symbol = some spelling →
    w'.names.resolve? symbol = some spelling
  /-- and only reading adds names. -/
  unread : request.reads = false → w'.names = w.names
  /-- A request that fails changes nothing but names and the journal. -/
  failed : ∀ error, answer = .error error → ∃ names journal, w' = { w with names, journal }
  /-- A request that succeeds changes identities, links and actions besides. -/
  succeeded : ∀ made, answer = .ok made → ∃ names journal lineage actions,
    w' = { w with names, journal, lineage, actions }
  /-- It gives out one identity for each table that it asks for, -/
  next : ∀ made, answer = .ok made → w'.lineage.next = w.lineage.next + request.tables
  /-- adds the links that it asks for to those that were there, -/
  links : ∀ made, answer = .ok made →
    w'.lineage.links = request.links ⟨w.lineage.next⟩ ++ w.lineage.links
  /-- and adds the action that it makes, with a table of the new identity. -/
  made : ∀ made, answer = .ok made → w'.actions = w.actions ++ made.toList ∧
    (request.tables = 1 → ∃ action, made = some action ∧ action.table.id = ⟨w.lineage.next⟩)

variable {w w' : Workshop}

/-! ## Drafting a table -/

/-- Taking back a scratch area that holds what it held changes nothing but the journal. -/
theorem reclaim_frame (htrace : w.scratch.trace = []) {scratch : Scratch}
    (hentries : scratch.entries = w.scratch.entries) :
    ∃ journal, w.reclaim scratch = { w with journal } := by
  have hscratch : { scratch with trace := [] } = w.scratch := by
    rw [hentries, ← htrace]
  unfold reclaim
  rw [hscratch]
  exact ⟨_, rfl⟩

/-- **Drafting a table changes nothing but the journal**, whether the draft is filled and finished
or not. -/
theorem draft_frame (htrace : w.scratch.trace = [])
    {fill : Draft → Except BuildError Unit × Draft}
    (hfill : ∀ draft : Draft, draft.Above w.scratch → (fill draft).2.Above w.scratch)
    {result : Except BuildError Finished} (h : w.draft fill = (result, w')) :
    ∃ journal, w' = { w with journal } := by
  have habove := hfill _ (Draft.start_above w.scratch)
  unfold Workshop.draft at h
  split at h
  · next error draft hfilled =>
    rw [hfilled] at habove
    obtain ⟨-, rfl⟩ := Prod.mk.inj h
    exact reclaim_frame htrace habove.discard
  · next draft hfilled =>
    rw [hfilled] at habove
    obtain ⟨-, rfl⟩ := Prod.mk.inj h
    exact reclaim_frame htrace habove.finish

theorem readSpec_frame {text : String} {result : Except BuildError (List Value)}
    (h : w.readSpec text = (result, w')) :
    ∃ names, w' = { w with names } ∧ w.names.Grows names := by
  obtain ⟨-, rfl⟩ := Prod.mk.inj h
  exact ⟨_, rfl, SpecText.read_grows w.types w.names text.toList⟩

/-- Drafting a table from the text of a spec adds the names it has read. -/
theorem draftSpec_frame (htrace : w.scratch.trace = []) {text : String} {withOutput : Bool}
    {result : Except BuildError Finished} (h : w.draftSpec text withOutput = (result, w')) :
    ∃ names journal, w' = { w with names, journal } ∧ w.names.Grows names := by
  unfold draftSpec at h
  split at h
  · next error read hread =>
    obtain ⟨names, rfl, hgrows⟩ := readSpec_frame hread
    obtain ⟨-, rfl⟩ := Prod.mk.inj h
    exact ⟨names, w.journal, rfl, hgrows⟩
  · next spec read hread =>
    obtain ⟨names, rfl, hgrows⟩ := readSpec_frame hread
    obtain ⟨journal, rfl⟩ := draft_frame (w := { w with names }) htrace
      (fun draft habove => habove.declare spec withOutput) h
    exact ⟨names, journal, rfl, hgrows⟩

/-! ## Carrying out requests -/

/-- A request that fails, without reading more than names. -/
theorem Settles.failure {request : Request} {names : Names} {journal : List Event}
    {error : BuildError} (hgrows : w.names.Grows names)
    (hunread : request.reads = false → names = w.names) :
    w.Settles request (.error error) { w with names, journal } where
  names := hgrows
  resolved _ _ := hgrows.resolve?
  unread := hunread
  failed _ _ := ⟨names, journal, rfl⟩
  succeeded _ h := by cases h
  next _ h := by cases h
  links _ h := by cases h
  made _ h := by cases h

/-- A request that succeeds, with the identities and links that it asks for. -/
theorem Settles.success {request : Request} {names : Names} {journal : List Event}
    {lineage : Lineage} {made : Option Action} (hgrows : w.names.Grows names)
    (hunread : request.reads = false → names = w.names)
    (hnext : lineage.next = w.lineage.next + request.tables)
    (hlinks : lineage.links = request.links ⟨w.lineage.next⟩ ++ w.lineage.links)
    (hmade : request.tables = 1 →
      ∃ action, made = some action ∧ action.table.id = ⟨w.lineage.next⟩) :
    w.Settles request (.ok made)
      { w with names, journal, lineage, actions := w.actions ++ made.toList } where
  names := hgrows
  resolved _ _ := hgrows.resolve?
  unread := hunread
  failed _ h := by cases h
  succeeded _ _ := ⟨names, journal, lineage, w.actions ++ made.toList, rfl⟩
  next _ _ := hnext
  links _ _ := hlinks
  made other h := by
    obtain rfl := Except.ok.inj h
    exact ⟨rfl, hmade⟩

theorem readSpec_settles {text : String} {result : Except BuildError (List Value)}
    (h : w.readSpec text = (result, w')) :
    w.Settles (.readSpec text) (result.map fun _ => none) w' := by
  obtain ⟨names, rfl, hgrows⟩ := readSpec_frame h
  have hunread : (Request.readSpec text).reads = false → names = w.names := fun h => by cases h
  cases result with
  | error error => exact .failure hgrows hunread
  | ok values =>
    have hsettles : w.Settles (.readSpec text) (.ok none)
        { w with names, actions := w.actions ++ (none : Option Action).toList } :=
      .success hgrows hunread rfl rfl fun h => by cases h
    rw [Option.toList_none, List.append_nil] at hsettles
    exact hsettles

theorem makeNative_settles (htrace : w.scratch.trace = []) {function : Native}
    {words : Option (List (Symbol × Value))} {result : Except BuildError Action}
    (h : w.makeNative function words = (result, w')) :
    w.Settles (.makeNative function words) (result.map some) w' := by
  unfold makeNative at h
  split at h
  · next error drafted hd =>
    obtain ⟨names, journal, rfl, hgrows⟩ := draftSpec_frame htrace hd
    obtain ⟨rfl, rfl⟩ := Prod.mk.inj h
    exact .failure hgrows fun h => by cases h
  · next finished drafted hd =>
    obtain ⟨names, journal, rfl, hgrows⟩ := draftSpec_frame htrace hd
    obtain ⟨rfl, rfl⟩ := Prod.mk.inj h
    -- The label of the native is one more name.
    exact .success (hgrows.trans (names.intern_grows _)) (fun h => by cases h) rfl rfl
      fun _ => ⟨_, rfl, rfl⟩

theorem specialize_settles (htrace : w.scratch.trace = []) {source : Action}
    {bindings : List (Symbol × Value)} {result : Except BuildError Action}
    (h : w.specialize source bindings = (result, w')) :
    w.Settles (.specialize source bindings) (result.map some) w' := by
  have hfill (draft : Draft) (habove : draft.Above w.scratch) :=
    Draft.Above.describe source.description
      ((habove.copy source.table .preserve).fixAll bindings)
  unfold specialize at h
  simp only at h
  split at h
  · next error drafted hd =>
    obtain ⟨journal, rfl⟩ := draft_frame htrace hfill hd
    obtain ⟨rfl, rfl⟩ := Prod.mk.inj h
    exact .failure (.refl _) fun _ => rfl
  · next finished drafted hd =>
    obtain ⟨journal, rfl⟩ := draft_frame htrace hfill hd
    obtain ⟨rfl, rfl⟩ := Prod.mk.inj h
    exact .success (.refl _) (fun _ => rfl) rfl rfl fun _ => ⟨_, rfl, rfl⟩

theorem augment_settles (htrace : w.scratch.trace = []) {source : Action} {spec : List Value}
    {label : Option Symbol} {result : Except BuildError Action}
    (h : w.augment source spec label = (result, w')) :
    w.Settles (.augment source spec label) (result.map some) w' := by
  have hfill (draft : Draft) (habove : draft.Above w.scratch) :=
    Draft.Above.describe source.description
      ((habove.copy source.table .sealFixed).declare spec false)
  unfold augment at h
  simp only at h
  split at h
  · next error drafted hd =>
    obtain ⟨journal, rfl⟩ := draft_frame htrace hfill hd
    obtain ⟨rfl, rfl⟩ := Prod.mk.inj h
    exact .failure (.refl _) fun _ => rfl
  · next finished drafted hd =>
    obtain ⟨journal, rfl⟩ := draft_frame htrace hfill hd
    obtain ⟨rfl, rfl⟩ := Prod.mk.inj h
    exact .success (.refl _) (fun _ => rfl) rfl rfl fun _ => ⟨_, rfl, rfl⟩

theorem makeChecker_settles {descriptor : Value} {result : Except BuildError Action}
    (h : w.makeChecker descriptor = (result, w')) :
    w.Settles (.makeChecker descriptor) (result.map some) w' := by
  unfold makeChecker at h
  split at h
  · obtain ⟨rfl, rfl⟩ := Prod.mk.inj h
    exact .failure (.refl _) fun _ => rfl
  · obtain ⟨rfl, rfl⟩ := Prod.mk.inj h
    exact .success (.refl _) (fun _ => rfl) rfl rfl fun h => by cases h

/-- Every request settles in a workshop that keeps no trace of regions. -/
theorem settles_of_trace (htrace : w.scratch.trace = []) (request : Request) :
    w.Settles request (w.carryOut request).1 (w.carryOut request).2 := by
  cases request with
  | readSpec text => exact readSpec_settles (Prod.eta _).symm
  | makeNative function words => exact makeNative_settles htrace (Prod.eta _).symm
  | specialize source bindings => exact specialize_settles htrace (Prod.eta _).symm
  | augment source spec label => exact augment_settles htrace (Prod.eta _).symm
  | makeChecker descriptor => exact makeChecker_settles (Prod.eta _).symm

/-- Carried out or not, a request gives the scratch area back as it was. -/
theorem Settles.scratch {request : Request} {answer : Except BuildError (Option Action)}
    (h : w.Settles request answer w') : w'.scratch = w.scratch := by
  cases answer with
  | error error =>
    obtain ⟨names, journal, rfl⟩ := h.failed error rfl
    rfl
  | ok made =>
    obtain ⟨names, journal, lineage, actions, rfl⟩ := h.succeeded made rfl
    rfl

/-! ## Between operations -/

theorem bare_scratch : bare.scratch = {} := by
  unfold bare
  simp only
  split <;>
    next drafted hd =>
      obtain ⟨names, journal, rfl, -⟩ := draftSpec_frame rfl hd
      rfl

theorem install_scratch (hw : w.scratch = {}) (function : Native) :
    (w.install function).scratch = {} := by
  have htrace := congrArg Scratch.trace hw
  unfold install
  split <;>
    next made hmake => exact (makeNative_settles htrace hmake).scratch.trans hw

theorem foldl_install_scratch (functions : List Native) (hw : w.scratch = {}) :
    (functions.foldl install w).scratch = {} := by
  induction functions generalizing w with
  | nil => exact hw
  | cons function rest ih => exact ih (install_scratch hw function)

theorem scratch_note (w : Workshop) (event : Event) : (w.note event).scratch = w.scratch := rfl

theorem fresh_scratch : fresh.scratch = {} :=
  (scratch_note _ _).trans (foldl_install_scratch Library.all bare_scratch)

theorem step_scratch (htrace : w.scratch.trace = []) (hs : Step w w') :
    w'.scratch = w.scratch := by
  cases hs with
  | intern name => rfl
  | register name => rfl
  | readSpec text => exact (settles_of_trace htrace (.readSpec text)).scratch
  | makeNative function words =>
    exact (settles_of_trace htrace (.makeNative function words)).scratch
  | specialize source own bindings =>
    exact (settles_of_trace htrace (.specialize source bindings)).scratch
  | augment source own spec label =>
    exact (settles_of_trace htrace (.augment source spec label)).scratch
  | makeChecker descriptor => exact (settles_of_trace htrace (.makeChecker descriptor)).scratch

/-- **Between operations the scratch area is empty.** -/
theorem Reachable.scratch_eq (hw : w.Reachable) : w.scratch = {} := by
  induction hw with
  | refl => exact fresh_scratch
  | tail hreach hstep ih =>
    have htrace := congrArg Scratch.trace ih
    exact (step_scratch htrace hstep).trans ih

/-- **A failed construction leaves a workshop as it was**, but for names that were read, and a
successful one adds the table, the link and the action that it was asked for. The scratch area
holds nothing before and after, and the table that comes next has no link yet. -/
theorem carryOut_settles (hw : w.Reachable) (request : Request) :
    w.scratch.depth = 0 ∧ w.lineage.source? ⟨w.lineage.next⟩ = none ∧
      w.Settles request (w.carryOut request).1 (w.carryOut request).2 := by
  have hscratch := hw.scratch_eq
  refine ⟨?_, hw.sound.unlinked _ (Nat.le_refl _), ?_⟩
  · rw [hscratch]
    rfl
  · exact settles_of_trace (congrArg Scratch.trace hscratch) request

theorem add_repeated_refused : (fresh.trial 0 fun made add =>
    match made.augment add [.word ⟨99⟩, .word ⟨99⟩] none with
    | (.ok _, _) => none
    | (.error error, _) => some error) = some (.duplicateParameter ⟨99⟩) := by
  decide +kernel

/-- Addition with a parameter that is declared twice, which is found only at the end, and addition
with no parameter fixed. -/
theorem carryOut_settles_add : ∃ add ∈ fresh.actions,
    (∃ w, fresh.carryOut (.augment add [.word ⟨99⟩, .word ⟨99⟩] none) =
        (.error (.duplicateParameter ⟨99⟩), w) ∧
      fresh.Settles (.augment add [.word ⟨99⟩, .word ⟨99⟩] none)
        (.error (.duplicateParameter ⟨99⟩)) w) ∧
    ∃ action w, fresh.carryOut (.specialize add []) = (.ok (some action), w) ∧
      fresh.Settles (.specialize add []) (.ok (some action)) w := by
  obtain ⟨made, hmade, hfresh, add, hmem, hmatch⟩ := exists_of_trial add_repeated_refused
  rw [← hmade]
  refine ⟨add, hmem, ?_, ?_⟩
  · have hsettles := (carryOut_settles hfresh (.augment add [.word ⟨99⟩, .word ⟨99⟩] none)).2.2
    split at hmatch
    · cases hmatch
    · next error w haugment =>
      obtain rfl := Option.some.inj hmatch
      simp only [carryOut, haugment] at hsettles ⊢
      exact ⟨w, rfl, hsettles⟩
  · have hsettles := (carryOut_settles hfresh (.specialize add [])).2.2
    obtain ⟨action, w, hspecialize⟩ := specialize_nil made (hfresh.sound.wellFormed hmem)
    simp only [carryOut, hspecialize] at hsettles ⊢
    exact ⟨action, w, rfl, hsettles⟩

end Workshop

end ActionKit
