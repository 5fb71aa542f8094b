import ActionKit.Proofs.Library
import ActionKit.Proofs.Paired

/-!
# Augmentation is transparent

An augmentation takes more parameters than its source, behind all others. Natives look at the
parameters of their own table only, so that nobody can tell an augmentation from its source by its
results.

* `Native.Discreet`: a native that reads of its call what its own table declares, and no more.
* `declaredWords`: the parameters a spec declares that positional arguments may fill.
* `Table.accepts`: whether a parameter accepts a value.
* `Widens`: a frame of an augmentation beside one of its source.

Results:
* `Extends.positional_eq`: positional arguments fill the parameters of the source first, and then
  the words that the spec declares.
* `Widens.set`: an argument that the spec does not declare does the same to both frames.
* `Widens.supply`: one that it declares is taken, and changes nothing that the source has.
* `call_augmented`: calls give the same value or the same error, whatever new parameters are given.
-/

namespace ActionKit

/-- **A native that reads only what its own table declares**: its arguments, in order and by name,
and its binding. It may call other actions. -/
def Native.Discreet (function : Native) : Prop :=
  ∀ c d : Call, c.lineage = d.lineage → c.args = d.args → c.arg? = d.arg? →
    c.binding = d.binding → function.run c = function.run d

/-- The names of the parameters a spec declares that positional arguments may fill. -/
def declaredWords (spec : List Value) : List Symbol :=
  ((heads spec).filter (·.2 = .normal)).map (·.1)

/-- Whether a parameter of a table accepts a value. -/
def Table.accepts (table : Table) (name : Symbol) (value : Value) : Bool :=
  match table.findEntry? name with
  | some (entry, _) => entry.types?.any (·.accepts value)
  | none => false

/-! ## Parameters that are not looked at -/

theorem missing?_congr {table : Table} {c d : Nat → Value}
    (h : ∀ slot, slot < table.size → c slot = d slot) : missing? table c = missing? table d := by
  unfold missing?
  rw [← List.head?_filterMap, ← List.head?_filterMap]
  refine congrArg List.head? (List.filterMap_congr fun pair hpair => ?_)
  obtain ⟨entry, slot⟩ := pair
  obtain ⟨-, hslot⟩ := Table.mem_params.mp hpair
  simp only [h slot (List.getElem?_eq_some_iff.mp hslot).1]

theorem Table.find?_lt {table : Table} {name : Symbol} {slot : Nat}
    (h : table.find? name = some slot) : slot < table.size := by
  obtain ⟨⟨entry, other⟩, hfind, rfl⟩ := Option.map_eq_some_iff.mp h
  exact (List.getElem?_eq_some_iff.mp (findEntry_some hfind).2.1).1

namespace Call

variable {c d : Call}

theorem args_congr (htable : c.table = d.table)
    (h : ∀ slot, slot < d.table.size → c.cell slot = d.cell slot) : c.args = d.args := by
  unfold args argSlots
  rw [htable]
  refine List.map_congr_left fun slot hslot => h slot ?_
  exact List.mem_range.mp (List.mem_of_mem_drop (List.mem_filter.mp hslot).1)

theorem arg?_congr (htable : c.table = d.table)
    (h : ∀ slot, slot < d.table.size → c.cell slot = d.cell slot) : c.arg? = d.arg? := by
  funext name
  unfold arg?
  rw [htable]
  cases hfind : d.table.find? name with
  | none => rfl
  | some slot => exact congrArg some (h slot (Table.find?_lt hfind))

end Call

/-! ## Where the parameters of an augmentation are -/

namespace Entry

@[simp] theorem initialCell_sealFixed (entry : Entry) :
    entry.sealFixed.initialCell = entry.initialCell := by
  unfold initialCell
  rw [content_sealFixed]

theorem allow_sealFixed (entry : Entry) (name : Symbol) (value : Value) :
    Frame.allow entry.sealFixed name value = Frame.allow entry name value := by
  unfold Frame.allow Frame.permit
  rw [isExposed_sealFixed, content_sealFixed]

/-- Of declared parameters, positional arguments fill the words. -/
theorem positional_declared {more : List Entry} {added : List (Symbol × Role)}
    (h : List.Forall₂ Entry.DeclaredAs more added) :
    (more.filter fun entry => decide (entry.role? = some .normal) && entry.isExposed).map (·.name) =
      (added.filter (·.2 = .normal)).map (·.1) := by
  induction h with
  | nil => rfl
  | @cons entry head _ _ hfirst _ ih =>
    obtain ⟨types, ho⟩ := hfirst.isOpen
    by_cases hnormal : head.2 = .normal
    · rw [List.filter_cons_of_pos (by simp [ho.role?, ho.isExposed, hnormal]),
        List.filter_cons_of_pos (by simp [hnormal]), List.map_cons, List.map_cons, hfirst.name, ih]
    · rw [List.filter_cons_of_neg (by simp [ho.role?, hnormal]),
        List.filter_cons_of_neg (by simp [hnormal]), ih]

end Entry

namespace Table

/-- A parameter that accepts a value may be given it, if it is open and no output. -/
theorem permits_of_accepts {table : Table} {name : Symbol} {value : Value} {entry : Entry}
    {slot : Nat} (hfind : table.findEntry? name = some (entry, slot)) {role : Role}
    {types : Constraint} (ho : entry.Open role types) (hrole : role ≠ .output)
    (h : table.accepts name value = true) : entry.Permits value := by
  unfold accepts at h
  rw [hfind] at h
  unfold Entry.types? at h
  simp only [ho.content] at h
  exact ⟨role, types, ho, hrole, .inl h⟩

namespace Extends

variable {added : List (Symbol × Role)} {source derived : Table}

/-- The source has no parameter of a name that is declared. -/
theorem not_declared (h : Extends added source derived) {entry : Entry} (he : entry ∈ source.body) :
    entry.name ∉ added.map (·.1) := by
  obtain ⟨more, hbody, hmore⟩ := h.body_eq
  have hdistinct := h.distinct
  have hnames : more.map (·.name) = added.map (·.1) := Entry.names_eq hmore
  rw [hbody, List.map_append, hnames] at hdistinct
  have hmem : entry.name ∈ (source.body.map (·.sealFixed)).map (·.name) := by
    rw [List.map_map]
    exact List.mem_map.mpr ⟨entry, he, entry.name_sealFixed⟩
  exact fun hname => (List.nodup_append.mp hdistinct).2.2 _ hmem _ hname rfl

/-- A parameter that is not declared keeps its slot. -/
theorem find_some (h : Extends added source derived) (hs : source.WellFormed) {name : Symbol}
    {entry : Entry} {slot : Nat} (hf : source.findEntry? name = some (entry, slot)) :
    derived.findEntry? name = some (entry.sealFixed, slot) := by
  obtain ⟨h0, he, hname⟩ := findEntry_some hf
  rw [findEntry_eq_some_iff h.distinct]
  refine ⟨h0, ?_, by rw [Entry.name_sealFixed, hname]⟩
  rw [h.getElem?_lt hs (List.getElem?_eq_some_iff.mp he).1, he]
  rfl

theorem find_none (h : Extends added source derived) {name : Symbol}
    (hf : source.findEntry? name = none) (hn : name ∉ added.map (·.1)) :
    derived.findEntry? name = none := by
  obtain ⟨more, hbody, hmore⟩ := h.body_eq
  rw [findEntry_eq_none_iff] at hf ⊢
  intro entry he
  rw [hbody] at he
  rcases List.mem_append.mp he with he | he
  · obtain ⟨old, hold, rfl⟩ := List.mem_map.mp he
    rw [Entry.name_sealFixed]
    exact hf old hold
  · rintro rfl
    obtain ⟨head, hhead, hdeclared⟩ := exists_of_forall₂ hmore he
    exact hn (List.mem_map.mpr ⟨head, hhead, hdeclared.name.symm⟩)

/-- A parameter that is declared is behind all others, open, and no output. -/
theorem find_declared (h : Extends added source derived) (hs : source.WellFormed) {name : Symbol}
    (hn : name ∈ added.map (·.1)) :
    ∃ entry slot, derived.findEntry? name = some (entry, slot) ∧ source.size ≤ slot ∧
      ∃ role types, entry.Open role types ∧ role ≠ .output := by
  obtain ⟨more, hentries, hmore⟩ := h.entries
  obtain ⟨head, hhead, rfl⟩ := List.mem_map.mp hn
  obtain ⟨i, hi, rfl⟩ := List.mem_iff_getElem.mp hhead
  have hi' : i < more.length := hmore.length_eq ▸ hi
  have hdeclared : more[i].DeclaredAs added[i] := hmore.get hi' hi
  obtain ⟨types, ho⟩ := hdeclared.isOpen
  have hsize : source.size = source.body.length + 1 := by
    unfold size
    rw [hs.entries_eq, List.length_cons]
  refine ⟨more[i], source.size + i, ?_, Nat.le_add_right _ _, added[i].2, types, ho,
    h.inputs _ hhead⟩
  rw [findEntry_eq_some_iff h.distinct]
  refine ⟨by omega, ?_, hdeclared.name⟩
  rw [hentries, hsize, show source.body.length + 1 + i = source.body.length + i + 1 by omega,
    List.getElem?_cons_succ, List.getElem?_append_right (by rw [List.length_map]; omega),
    List.length_map, Nat.add_sub_cancel_left, List.getElem?_eq_getElem hi']

/-- **Positional arguments fill the parameters of the source first**, and then the declared
words. -/
theorem positional_eq (h : Extends added source derived) :
    derived.positional =
      source.positional ++ (added.filter (·.2 = .normal)).map (·.1) := by
  obtain ⟨more, hbody, hmore⟩ := h.body_eq
  rw [Table.positional_eq, Table.positional_eq, hbody, List.filter_append, List.map_append]
  congr 1
  · rw [List.filter_map, List.map_map]
    have hsame : ((fun entry => decide (entry.role? = some .normal) && entry.isExposed) ∘
        (·.sealFixed) : Entry → Bool) =
        fun entry => decide (entry.role? = some .normal) && entry.isExposed := by
      funext entry
      simp
    rw [hsame]
    exact List.map_congr_left fun entry _ => entry.name_sealFixed
  · exact Entry.positional_declared hmore

end Extends

end Table

/-! ## An augmentation beside its source -/

/-- **A frame of an augmentation beside one of its source.** The cells of the source are the
same. -/
structure Widens (D S : Action) (f g : Frame) : Prop where
  derived : f.Built D
  source : g.Built S
  cells : ∀ slot, slot < S.table.size → f.cell slot = g.cell slot

namespace Widens

variable {D S : Action} {added : List (Symbol × Role)} {f g : Frame}

theorem new (he : Table.Extends added S.table D.table) (hs : S.table.WellFormed) :
    Widens D S (.new D) (.new S) where
  derived := .new
  source := .new
  cells slot hlt := by
    have hentry := List.getElem?_eq_getElem (l := S.table.entries) hlt
    have hsealed : D.table.entries[slot]? = some S.table.entries[slot].sealFixed := by
      rw [he.getElem?_lt hs hlt, hentry]
      rfl
    rw [Frame.Built.cell_new hentry, Frame.Built.cell_new hsealed, Entry.initialCell_sealFixed]

/-- **An argument that is not declared** is refused by both frames or taken by both. -/
theorem set (he : Table.Extends added S.table D.table) (hs : S.table.WellFormed)
    (h : Widens D S f g) {name : Symbol} (hname : name ∉ added.map (·.1)) (value : Value) :
    Paired (Widens D S) (f.set name value) (g.set name value) := by
  cases hfind : S.table.findEntry? name with
  | none =>
    rw [Frame.set_of_none (h.derived.table ▸ he.find_none hfind hname),
      Frame.set_of_none (h.source.table ▸ hfind)]
    exact .refused _
  | some found =>
    obtain ⟨entry, slot⟩ := found
    have hderived := he.find_some hs hfind
    obtain ⟨-, hentry, -⟩ := Table.findEntry_some hfind
    obtain ⟨-, hsealed, -⟩ := Table.findEntry_some hderived
    refine Frame.set_paired (h.derived.table ▸ hderived) (h.source.table ▸ hfind)
      (entry.allow_sealFixed name value) fun hleft hright =>
        ⟨h.derived.set hleft, h.source.set hright, fun i hlt => ?_⟩
    rw [h.derived.cell_put hsealed, h.source.cell_put hentry, h.cells i hlt]

/-- **An argument that is declared** is taken, if it is accepted, and the source has nothing of
it. -/
theorem supply (he : Table.Extends added S.table D.table) (hs : S.table.WellFormed)
    (h : Widens D S f g) {name : Symbol} (hname : name ∈ added.map (·.1)) {value : Value}
    (hvalue : D.table.accepts name value = true) :
    ∃ next, f.set name value = .ok next ∧ Widens D S next g := by
  obtain ⟨entry, slot, hfind, hle, role, types, ho, hrole⟩ := he.find_declared hs hname
  have hpermits := Table.permits_of_accepts hfind ho hrole hvalue
  have hset := Frame.set_of_some (h.derived.table ▸ hfind) value
  rw [Frame.allow_eq_ok_iff.mpr hpermits] at hset
  refine ⟨f.put slot value, hset, h.derived.set hset, h.source, fun i hlt => ?_⟩
  obtain ⟨-, hentry, -⟩ := Table.findEntry_some hfind
  rw [h.derived.cell_put hentry, if_neg (by omega)]
  exact h.cells i hlt

end Widens

/-- Names are paired with values in order, and further names only with further values. -/
theorem zip_append_of_le {names more : List Symbol} {values extra : List Value}
    (hle : values.length ≤ names.length) (hfull : extra ≠ [] → values.length = names.length) :
    (names ++ more).zip (values ++ extra) = names.zip values ++ more.zip extra := by
  induction values generalizing names with
  | nil =>
    by_cases hextra : extra = []
    · rw [hextra, List.append_nil, List.zip_nil_right, List.zip_nil_right, List.zip_nil_right]
      rfl
    · obtain rfl := List.length_eq_zero_iff.mp (hfull hextra).symm
      rfl
  | cons value rest ih =>
    cases names with
    | nil => cases hle
    | cons name names =>
      have hrest := ih (Nat.le_of_succ_le_succ hle) fun h => Nat.succ.inj (hfull h)
      rw [List.cons_append, List.cons_append, List.zip_cons_cons, hrest, List.zip_cons_cons,
        List.cons_append]

section Filling

variable {D S : Action} {spec : List Value}

/-- Which arguments are not for declared parameters. -/
def isUndeclared (spec : List Value) (pair : Symbol × Value) : Bool :=
  decide (pair.1 ∉ declaredNames spec)

theorem filter_zip_positional (he : Table.Extends (heads spec) S.table D.table)
    (values : List Value) : (S.table.positional.zip values).filter (isUndeclared spec) =
      S.table.positional.zip values := by
  refine List.filter_eq_self.mpr fun pair hpair => decide_eq_true ?_
  obtain ⟨entry, hentry, -, -, hname⟩ := Table.mem_positional.mp (List.of_mem_zip hpair).1
  rw [← hname]
  exact he.not_declared hentry

theorem filter_zip_declaredWords (spec values : List Value) :
    ((declaredWords spec).zip values).filter (isUndeclared spec) = [] := by
  refine List.filter_eq_nil_iff.mpr fun pair hpair hkeep => of_decide_eq_true hkeep ?_
  obtain ⟨head, hhead, hname⟩ := List.mem_map.mp (List.of_mem_zip hpair).1
  exact List.mem_map.mpr ⟨head, (List.mem_filter.mp hhead).1, hname⟩

/-- **Filling a frame of an augmentation** is filling one of its source with the arguments that
are not for declared parameters. -/
theorem fulfil_augmented (he : Table.Extends (heads spec) S.table D.table)
    (hs : S.table.WellFormed) {positional extra : List Value} {named : List (Symbol × Value)}
    (hlength : positional.length ≤ S.table.positional.length)
    (hfull : extra ≠ [] → positional.length = S.table.positional.length)
    (hextra : extra.length ≤ (declaredWords spec).length)
    (haccepted : ∀ pair ∈ (declaredWords spec).zip extra ++ named,
      pair.1 ∈ declaredNames spec → D.table.accepts pair.1 pair.2 = true) :
    Paired (Widens D S) (fulfil D (positional ++ extra) named)
      (fulfil S positional (named.filter (isUndeclared spec))) := by
  have hpositional : D.table.positional = S.table.positional ++ declaredWords spec :=
    he.positional_eq
  have hle : (positional ++ extra).length ≤ D.table.positional.length := by
    rw [hpositional, List.length_append, List.length_append]
    omega
  rw [fulfil_of_le hle, fulfil_of_le hlength, hpositional, zip_append_of_le hlength hfull,
    List.append_assoc]
  have hfilter : (S.table.positional.zip positional ++
      ((declaredWords spec).zip extra ++ named)).filter (isUndeclared spec) =
      S.table.positional.zip positional ++ named.filter (isUndeclared spec) := by
    rw [List.filter_append, List.filter_append, filter_zip_positional he,
      filter_zip_declaredWords, List.nil_append]
  rw [← hfilter]
  refine Frame.setAll_paired ?_ ?_ (.new he hs)
  · intro pair _ hkeep f g h
    exact h.set he hs (of_decide_eq_true hkeep) pair.2
  · intro pair hpair hdrop f g h
    have hdeclared : pair.1 ∈ declaredNames spec := Decidable.not_not.mp (of_decide_eq_false hdrop)
    refine h.supply he hs hdeclared (haccepted pair ?_ hdeclared)
    rcases List.mem_append.mp hpair with hzip | hmem
    · rw [← filter_zip_positional he] at hzip
      rw [(List.mem_filter.mp hzip).2] at hdrop
      cases hdrop
    · exact hmem

end Filling

namespace Workshop

variable {w w' w'' : Workshop}

/-- **Whoever the cells of the source are enough for** answers both frames alike. -/
theorem Sound.invoke_widens (hw : w.Sound) {D S : Action} (hD : D ∈ w.actions)
    (hS : S ∈ w.actions) (horigin : D.origin = S.origin)
    (hdiscreet : ∀ face function binding, S.origin = .native face function binding →
      function.Discreet) {f g : Frame} (h : Widens D S f g) : w.invoke f = w.invoke g := by
  -- The table of the native or typechecker at the end is no larger than that of the source.
  have hsize := (hw.origin_narrows hS).size_le
  have hcells : ∀ slot, slot < S.origin.table.size → f.cell slot = g.cell slot :=
    fun slot hlt => h.cells slot (Nat.lt_of_lt_of_le hlt hsize)
  refine hw.invoke_congr hD hS horigin h.derived.root h.source.root ?_ ?_
  · intro face function binding ho
    rw [ho] at hcells
    exact Frame.runNative_congr (missing?_congr hcells)
      (hdiscreet face function binding ho _ _ rfl (Call.args_congr rfl hcells)
        (Call.arg?_congr rfl hcells) rfl)
  · intro face test ho
    rw [ho] at hcells
    unfold Frame.checkedCell
    cases hfind : face.table.find? .value with
    | none => rfl
    | some slot => exact hcells slot (Table.find?_lt hfind)

/-- **An augmentation gives the results of its source**, whatever it is given besides. -/
structure Transparent (w : Workshop) (S D : Action) (spec : List Value) : Prop where
  /-- Positional arguments fill the parameters of the source first. -/
  positional : D.table.positional = S.table.positional ++ declaredWords spec
  /-- With the arguments of the source, both calls give the same value or the same error. -/
  plain : ∀ (positional : List Value) (named : List (Symbol × Value)),
    positional.length ≤ S.table.positional.length →
    (∀ pair ∈ named, pair.1 ∉ declaredNames spec) →
    w.call D positional named = w.call S positional named
  /-- Values for declared parameters, by position or by name, change nothing if they are
  accepted. -/
  supplied : ∀ (positional extra : List Value) (named : List (Symbol × Value)),
    positional.length ≤ S.table.positional.length →
    (extra ≠ [] → positional.length = S.table.positional.length) →
    extra.length ≤ (declaredWords spec).length →
    (∀ pair ∈ (declaredWords spec).zip extra ++ named, pair.1 ∈ declaredNames spec →
      D.table.accepts pair.1 pair.2 = true) →
    w.call D (positional ++ extra) named =
      w.call S positional (named.filter (isUndeclared spec))

/-- **Augmentation is transparent**, whatever its source was derived from. -/
theorem call_augmented (hw : w.Reachable) {S D : Action} (hS : S ∈ w.actions)
    (hdiscreet : ∀ face function binding, S.origin = .native face function binding →
      function.Discreet)
    {spec : List Value} {label : Option Symbol} (hD : w.augment S spec label = (.ok D, w'))
    (hl : w'.Leads w'') : w''.Transparent S D spec := by
  have hwf := hw.sound.wellFormed hS
  rcases augment_cases hwf hD with ⟨_, herror, -⟩ | ⟨face, hok, hextends, -, -, hadd⟩
  · cases herror
  obtain rfl := Except.ok.inj hok
  obtain ⟨hw'', hD'', hS''⟩ := (Leads.augment hS hD).derived_mem hw.sound hl hS hadd
  have hinvoke := fun f g => hw''.invoke_widens (f := f) (g := g) hD'' hS'' rfl hdiscreet
  refine ⟨hextends.positional_eq, fun positional named hlength hnamed => ?_,
    fun positional extra named hlength hfull hextra haccepted =>
      call_paired (fulfil_augmented hextends hwf hlength hfull hextra haccepted) hinvoke⟩
  -- Without values for declared parameters nothing is left out.
  have hfilter : named.filter (isUndeclared spec) = named :=
    List.filter_eq_self.mpr fun pair hmem => decide_eq_true (hnamed pair hmem)
  have hfilled : Paired (Widens (.derived face .augmented S) S)
      (fulfil (.derived face .augmented S) (positional ++ []) named)
      (fulfil S positional (named.filter (isUndeclared spec))) := by
    refine fulfil_augmented hextends hwf hlength (fun h => absurd rfl h) (Nat.zero_le _) ?_
    rw [List.zip_nil_right, List.nil_append]
    exact fun pair hmem hdeclared => absurd hdeclared (hnamed pair hmem)
  rw [List.append_nil, hfilter] at hfilled
  exact call_paired hfilled hinvoke

/-- All natives of the library are discreet. -/
theorem library_discreet {function : Native} (h : function ∈ Library.all) :
    function.Discreet := by
  intro c d _ hargs _ _
  simp only [Library.all, List.mem_cons, List.not_mem_nil, or_false] at h
  rcases h with rfl | rfl | rfl | rfl | rfl
  · unfold Library.add
    simp only [hargs]
  · unfold Library.join
    simp only [hargs]
  · unfold Library.length
    simp only [hargs]
  · unfold Library.negate
    simp only [hargs]
  · unfold Library.typeOf
    simp only [hargs]

theorem fresh_discreet {action : Action} (h : action ∈ fresh.actions) (face : Face)
    (function : Native) (binding : Binding) (ho : action.origin = .native face function binding) :
    function.Discreet := by
  rw [fresh_stock.2] at h
  obtain ⟨other, hother, _, rfl⟩ := exists_of_forall₂ fresh_stock.1 h
  obtain ⟨-, rfl, -⟩ := Action.native.inj ho
  exact library_discreet hother

theorem add_more_made : (fresh.trial 0 fun made add =>
    match made.augment add [.word ⟨99⟩] none with
    | (.ok action, w) =>
      (w.call action [.integer 1, .integer 2, .logic true] []).toOption
    | (.error _, _) => none) = some (.integer 3) := by
  decide +kernel

/-- Addition with a third parameter, called with three arguments. -/
theorem call_augmented_add : ∃ (S D : Action) (w : Workshop), S ∈ fresh.actions ∧
    fresh.augment S [.word ⟨99⟩] none = (.ok D, w) ∧
      (w.call D [.integer 1, .integer 2, .logic true] []).toOption = some (.integer 3) ∧
      w.Transparent S D [.word ⟨99⟩] := by
  obtain ⟨made, hmade, hfresh, S, hmem, hmatch⟩ := exists_of_trial add_more_made
  have hdiscreet := fresh_discreet (hmade ▸ hmem)
  rw [← hmade]
  split at hmatch
  · next D w hD => exact ⟨S, D, w, hmem, hD, hmatch, call_augmented hfresh hmem hdiscreet hD .refl⟩
  · cases hmatch

end Workshop

end ActionKit
