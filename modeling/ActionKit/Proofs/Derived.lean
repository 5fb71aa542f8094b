import ActionKit.Proofs.Declared

/-!
# Derived tables

Two derivations make a table from another one. A specialization fixes some open parameters to
values; an augmentation seals what is fixed and adds open parameters behind all others. Both keep
every parameter at its slot.

* `Table.Binds`, `Table.Extends`: the table of a specialization, and of an augmentation.
* `Table.Narrows`: what both have in common, slot by slot.

Results:
* `Binds.wellFormed`, `Extends.wellFormed`: derived tables are well formed.
* `Binds.narrows`, `Extends.narrows`, `Narrows.trans`: a table that is derived in any number of
  steps has the parameters of the first one at the same slots, open as they were or fixed to
  values that their types accept.
* `Narrows.find?`: the names of the first one lead to the same slots.
-/

namespace ActionKit

namespace Entry

/-- A value that an open parameter may be fixed to. -/
def Admits (entry : Entry) (value : Value) : Prop :=
  ∃ role types, entry.Open role types ∧ role ≠ .output ∧ types.accepts value = true

/-- The entry fixed to the value that some bindings have for its name. -/
def fixedBy (bindings : List (Symbol × Value)) (entry : Entry) : Entry :=
  match bindings.lookup entry.name with
  | some value => { entry with content := .fixed value }
  | none => entry

theorem fixedBy_some {bindings : List (Symbol × Value)} {entry : Entry} {value : Value}
    (h : bindings.lookup entry.name = some value) :
    entry.fixedBy bindings = { entry with content := .fixed value } := by
  unfold fixedBy
  rw [h]

theorem fixedBy_none {bindings : List (Symbol × Value)} {entry : Entry}
    (h : bindings.lookup entry.name = none) : entry.fixedBy bindings = entry := by
  unfold fixedBy
  rw [h]

@[simp] theorem name_fixedBy (bindings : List (Symbol × Value)) (entry : Entry) :
    (entry.fixedBy bindings).name = entry.name := by
  unfold fixedBy
  split <;> rfl

/-- Fixing parameters leaves their names as they are. -/
theorem names_fixedBy (bindings : List (Symbol × Value)) (entries : List Entry) :
    (entries.map (·.fixedBy bindings)).map (·.name) = entries.map (·.name) := by
  simp

/-- An entry and the same parameter after more derivations: still as it was, or fixed to a value
that its types accept. -/
structure Narrows (entry narrower : Entry) : Prop where
  name : narrower.name = entry.name
  content : narrower.content = entry.content ∨
    ∃ role types value, entry.content = .unbound role types ∧ role ≠ .output ∧
      types.accepts value = true ∧ narrower.content = .fixed value

theorem Narrows.refl (entry : Entry) : entry.Narrows entry := ⟨rfl, .inl rfl⟩

theorem Narrows.trans {a b c : Entry} (hab : a.Narrows b) (hbc : b.Narrows c) : a.Narrows c := by
  refine ⟨hbc.name.trans hab.name, ?_⟩
  rcases hbc.content with hc | ⟨role, types, value, hb, hrole, hacc, hc⟩
  · rw [hc]
    exact hab.content
  · rcases hab.content with hab | ⟨_, _, _, _, _, _, hfixed⟩
    · exact .inr ⟨role, types, value, hab ▸ hb, hrole, hacc, hc⟩
    · rw [hfixed] at hb
      cases hb

theorem narrows_sealFixed (entry : Entry) : entry.Narrows entry.sealFixed :=
  ⟨entry.name_sealFixed, .inl entry.content_sealFixed⟩

end Entry

section Lookup

variable {α β : Type} [DecidableEq α] {bindings : List (α × β)} {name : α} {value : β}

theorem mem_of_lookup (h : bindings.lookup name = some value) : (name, value) ∈ bindings := by
  obtain ⟨before, after, hsplit, -⟩ := List.lookup_eq_some_iff.mp h
  rw [hsplit]
  exact List.mem_append_right _ List.mem_cons_self

theorem lookup_of_mem (hd : (bindings.map (·.1)).Nodup) (h : (name, value) ∈ bindings) :
    bindings.lookup name = some value := by
  cases hl : bindings.lookup name with
  | none => simpa using List.lookup_eq_none_iff.mp hl _ h
  | some other =>
    have := List.inj_on_of_nodup_map hd (mem_of_lookup hl) h rfl
    rw [(Prod.mk.inj this).2]

theorem lookup_eq_none_of_notMem (h : name ∉ bindings.map (·.1)) :
    bindings.lookup name = none := by
  rw [List.lookup_eq_none_iff]
  intro pair hp
  rw [bne_iff_ne]
  rintro rfl
  exact h (List.mem_map.mpr ⟨pair, hp, rfl⟩)

/-- Where names differ, the order of the bindings is irrelevant to what is found. -/
theorem lookup_perm {others : List (α × β)} (hd : (bindings.map (·.1)).Nodup)
    (hperm : bindings.Perm others) (name : α) : bindings.lookup name = others.lookup name := by
  cases hl : bindings.lookup name with
  | some value =>
    have hmem := hperm.mem_iff.mp (mem_of_lookup hl)
    rw [lookup_of_mem ((hperm.map _).nodup_iff.mp hd) hmem]
  | none =>
    symm
    rw [List.lookup_eq_none_iff] at hl ⊢
    exact fun pair hpair => hl pair (hperm.mem_iff.mpr hpair)

end Lookup

namespace Table

/-- Parameters that the same name leads to are the same. -/
theorem WellFormed.entry_unique {table : Table} (h : table.WellFormed) {e f : Entry}
    (he : e ∈ table.body) (hf : f ∈ table.body) (hn : e.name = f.name) : e = f :=
  List.inj_on_of_nodup_map h.distinct he hf hn

theorem WellFormed.entries_eq {table : Table} (h : table.WellFormed) :
    table.entries = .header :: table.body :=
  h.layout.header

/-! ## Specialized tables -/

/-- **The table of a specialization**: the parameters that are bound are fixed, each was open and
takes the value, and all else is as it was. -/
structure Binds (bindings : List (Symbol × Value)) (source derived : Table) : Prop where
  entries : derived.entries = .header :: source.body.map (·.fixedBy bindings)
  output : derived.outputSlot = source.outputSlot
  distinct : (bindings.map (·.1)).Nodup
  admitted : ∀ pair ∈ bindings, ∃ entry ∈ source.body, entry.name = pair.1 ∧ entry.Admits pair.2

namespace Binds

variable {bindings : List (Symbol × Value)} {source derived : Table}

theorem body_eq (h : Binds bindings source derived) :
    derived.body = source.body.map (·.fixedBy bindings) := by
  unfold body
  rw [h.entries]
  rfl

/-- A bound parameter takes the value it is bound to. -/
theorem admits (h : Binds bindings source derived) (hs : source.WellFormed) {entry : Entry}
    (he : entry ∈ source.body) {value : Value} (hl : bindings.lookup entry.name = some value) :
    entry.Admits value := by
  obtain ⟨other, ho, hn, ha⟩ := h.admitted _ (mem_of_lookup hl)
  rw [hs.entry_unique he ho hn.symm]
  exact ha

theorem proper (h : Binds bindings source derived) (hs : source.WellFormed) {entry : Entry}
    (he : entry ∈ source.body) : (entry.fixedBy bindings).Proper := by
  have hp := hs.layout.proper entry he
  cases hl : bindings.lookup entry.name with
  | none =>
    rw [Entry.fixedBy_none hl]
    exact hp
  | some value =>
    obtain ⟨role, types, ho, -, -⟩ := h.admits hs he hl
    rw [Entry.fixedBy_some hl]
    refine ⟨by simp, fun _ => rfl, fun hr => ?_⟩
    cases hr

theorem wellFormed (h : Binds bindings source derived) (hs : source.WellFormed) :
    derived.WellFormed where
  layout := by
    rw [h.entries, h.output]
    refine hs.layout.mapBody (fun entry he => h.proper hs he) fun entry he => ?_
    cases hl : bindings.lookup entry.name with
    | none => rw [Entry.fixedBy_none hl]
    | some value =>
      obtain ⟨role, types, ho, hrole, -⟩ := h.admits hs he hl
      rw [Entry.fixedBy_some hl, ho.role?]
      refine ⟨fun hr => ?_, fun hr => absurd (Option.some.inj hr) hrole⟩
      cases hr
  distinct := by
    rw [h.body_eq, Entry.names_fixedBy]
    exact hs.distinct
  hasOutput := by
    rw [h.output]
    exact hs.hasOutput

theorem getElem?_succ (h : Binds bindings source derived) (slot : Nat) :
    derived.entries[slot + 1]? = (source.entries[slot + 1]?).map (·.fixedBy bindings) := by
  rw [h.entries, List.getElem?_cons_succ, List.getElem?_map]
  unfold body
  rw [List.getElem?_drop, Nat.add_comm 1 slot]

end Binds

/-! ## Augmented tables -/

/-- **The table of an augmentation**: what is fixed is sealed, the parameters of some heads come
behind all others, and no names coincide. -/
structure Extends (added : List (Symbol × Role)) (source derived : Table) : Prop where
  entries : ∃ more, derived.entries = .header :: (source.body.map (·.sealFixed) ++ more) ∧
    List.Forall₂ Entry.DeclaredAs more added
  output : derived.outputSlot = source.outputSlot
  inputs : ∀ head ∈ added, head.2 ≠ .output
  distinct : (derived.body.map (·.name)).Nodup

namespace Extends

variable {added : List (Symbol × Role)} {source derived : Table}

theorem body_eq (h : Extends added source derived) :
    ∃ more, derived.body = source.body.map (·.sealFixed) ++ more ∧
      List.Forall₂ Entry.DeclaredAs more added := by
  obtain ⟨more, he, hm⟩ := h.entries
  refine ⟨more, ?_, hm⟩
  unfold body
  rw [he]
  rfl

theorem wellFormed (h : Extends added source derived) (hs : source.WellFormed) :
    derived.WellFormed where
  layout := by
    obtain ⟨more, he, hm⟩ := h.entries
    rw [he, h.output]
    have hsealed : Layout (.header :: source.body.map (·.sealFixed)) source.outputSlot :=
      hs.layout.mapBody (fun entry he => (hs.layout.proper entry he).sealFixed)
        fun entry _ => by rw [Entry.role?_sealFixed]
    refine hsealed.append (fun entry he => ?_) fun entry he => ?_
    · obtain ⟨head, hh, hd⟩ := exists_of_forall₂ hm he
      exact hd.proper fun ho => absurd ho (h.inputs head hh)
    · obtain ⟨head, hh, hd⟩ := exists_of_forall₂ hm he
      obtain ⟨types, ho⟩ := hd.isOpen
      rw [ho.role?]
      exact fun hr => h.inputs head hh (Option.some.inj hr)
  distinct := h.distinct
  hasOutput := by
    rw [h.output]
    exact hs.hasOutput

theorem getElem?_lt (h : Extends added source derived) (hs : source.WellFormed) {slot : Nat}
    (hlt : slot < source.size) :
    derived.entries[slot]? = (source.entries[slot]?).map (·.sealFixed) := by
  obtain ⟨more, he, -⟩ := h.entries
  have hsize : source.size = source.body.length + 1 := by
    unfold size
    rw [hs.entries_eq, List.length_cons]
  rw [he, hs.entries_eq]
  cases slot with
  | zero => rfl
  | succ slot =>
    rw [List.getElem?_cons_succ, List.getElem?_cons_succ, List.getElem?_append_left,
      List.getElem?_map]
    rw [List.length_map]
    omega

end Extends

/-! ## Narrower tables -/

/-- A table and one that is derived from it: the parameters are at the same slots, as they were or
fixed to values that their types accept. -/
structure Narrows (table narrower : Table) : Prop where
  output : narrower.outputSlot = table.outputSlot
  slots : ∀ (slot : Nat) (entry : Entry), table.entries[slot]? = some entry →
    ∃ other, narrower.entries[slot]? = some other ∧ entry.Narrows other

theorem Narrows.refl (table : Table) : table.Narrows table :=
  ⟨rfl, fun _ entry he => ⟨entry, he, .refl entry⟩⟩

theorem Narrows.trans {a b c : Table} (hab : a.Narrows b) (hbc : b.Narrows c) : a.Narrows c := by
  refine ⟨hbc.output.trans hab.output, fun slot entry he => ?_⟩
  obtain ⟨mid, hm, hem⟩ := hab.slots slot entry he
  obtain ⟨last, hl, hml⟩ := hbc.slots slot mid hm
  exact ⟨last, hl, hem.trans hml⟩

/-- Derivations never drop a slot. -/
theorem Narrows.size_le {table narrower : Table} (h : table.Narrows narrower) :
    table.size ≤ narrower.size := by
  by_contra hlt
  have hslot : narrower.size < table.entries.length := Nat.lt_of_not_le hlt
  obtain ⟨other, ho, -⟩ := h.slots narrower.size _ (List.getElem?_eq_getElem hslot)
  have := (List.getElem?_eq_some_iff.mp ho).1
  exact Nat.lt_irrefl _ this

/-- **A parameter is found at its slot in all tables that are derived from its own.** -/
theorem Narrows.find? {table narrower : Table} (h : table.Narrows narrower)
    (hwf : narrower.WellFormed) {name : Symbol} {slot : Nat}
    (hfind : table.find? name = some slot) : narrower.find? name = some slot := by
  obtain ⟨⟨entry, i⟩, hentry, rfl : i = slot⟩ := Option.map_eq_some_iff.mp hfind
  obtain ⟨h0, he, rfl⟩ := findEntry_some hentry
  obtain ⟨other, hother, hnarrows⟩ := h.slots i entry he
  exact hwf.find_iff.mpr ⟨Nat.one_le_iff_ne_zero.mpr h0, other, hother, hnarrows.name⟩

theorem Binds.narrows {bindings : List (Symbol × Value)} {source derived : Table}
    (h : Binds bindings source derived) (hs : source.WellFormed) : source.Narrows derived := by
  refine ⟨h.output, fun slot entry he => ?_⟩
  cases slot with
  | zero =>
    rw [hs.layout.getElem?_zero] at he
    obtain rfl := Option.some.inj he
    exact ⟨.header, by rw [h.entries]; rfl, .refl _⟩
  | succ slot =>
    refine ⟨entry.fixedBy bindings, by rw [h.getElem?_succ, he]; rfl, ?_⟩
    have hmem : entry ∈ source.body := mem_body_iff.mpr ⟨slot + 1, Nat.succ_ne_zero slot, he⟩
    cases hl : bindings.lookup entry.name with
    | none =>
      rw [Entry.fixedBy_none hl]
      exact .refl entry
    | some value =>
      obtain ⟨role, types, ho, hrole, hacc⟩ := h.admits hs hmem hl
      rw [Entry.fixedBy_some hl]
      exact ⟨rfl, .inr ⟨role, types, value, ho.content, hrole, hacc, rfl⟩⟩

theorem Extends.narrows {added : List (Symbol × Role)} {source derived : Table}
    (h : Extends added source derived) (hs : source.WellFormed) : source.Narrows derived := by
  refine ⟨h.output, fun slot entry he => ⟨entry.sealFixed, ?_, entry.narrows_sealFixed⟩⟩
  rw [h.getElem?_lt hs (List.getElem?_eq_some_iff.mp he).1, he]
  rfl

end Table

end ActionKit
