import Mathlib.Data.List.AList
import Mathlib.Data.List.DropRight
import Mathlib.Data.List.Nodup

/-! `TowaRequest`: the parameters that a servlet reads, taken out of the query string. -/
namespace TowaParameters

/-- The code units of a `String`. -/
abbrev JavaString := List UInt16

def ampersand : UInt16 := 0x26

def equalsSign : UInt16 := 0x3D

/-- `String.split` at one character: the empty pieces at the end are left out, and a string
without the character is its own only piece. -/
def split (c : UInt16) (s : JavaString) : List JavaString :=
  if s.contains c then (s.splitOn c).rdropWhile List.isEmpty else [s]

/-- A `String[]` that has a first element. -/
abbrev Values := { values : List JavaString // values ≠ [] }

def Values.single (value : JavaString) : Values := ⟨[value], List.cons_ne_nil value []⟩

structure TowaRequest where
  method : JavaString
  queryString : JavaString
  parameters : AList fun _ : JavaString => Values

/-- One round of the loop of the constructor. -/
def addParameter (parameters : AList fun _ : JavaString => Values) (param : JavaString) :
    AList fun _ : JavaString => Values :=
  match split equalsSign param with
  | name :: value :: _ => parameters.insert name (.single value)
  | _ => parameters

def TowaRequest.new (method queryString : JavaString) : TowaRequest :=
  ⟨method, queryString, (split ampersand queryString).foldl addParameter ∅⟩

/-- `none` stands for `null`. -/
def TowaRequest.getParameter (r : TowaRequest) (name : JavaString) : Option JavaString :=
  (r.parameters.lookup name).map fun values => values.val.head values.property

def TowaRequest.getParameterValues (r : TowaRequest) (name : JavaString) :
    Option (List JavaString) :=
  (r.parameters.lookup name).map Subtype.val

/-- The order in which a `HashMap` is gone through. -/
structure KeyOrder where
  order : List JavaString → List JavaString
  perm : ∀ l, (order l).Perm l

def TowaRequest.getParameterNames (r : TowaRequest) (ko : KeyOrder) : List JavaString :=
  ko.order r.parameters.keys

/-! ### Writing a query string -/

def Plain (s : JavaString) : Prop := ampersand ∉ s ∧ equalsSign ∉ s

instance : DecidablePred Plain := fun s =>
  inferInstanceAs (Decidable (ampersand ∉ s ∧ equalsSign ∉ s))

structure Parameter where
  name : JavaString
  value : JavaString
  name_nonempty : name ≠ []
  name_plain : Plain name
  value_plain : Plain value

def Parameter.text (p : Parameter) : JavaString := p.name ++ equalsSign :: p.value

/-- `name=value` for every parameter, joined with `&`. -/
def queryOf (ps : List Parameter) : JavaString := [ampersand].intercalate (ps.map Parameter.text)

def names (ps : List Parameter) : List JavaString := ps.map Parameter.name

/-- The values that a name is given, in order. -/
def valuesOf (ps : List Parameter) (name : JavaString) : List JavaString :=
  (ps.filter fun p => p.name == name).map Parameter.value

/-- What `HttpServletRequest` promises of a request with the parameters `ps`. -/
structure Contract (ps : List Parameter) (ko : KeyOrder) (r : TowaRequest) : Prop where
  values : ∀ name ∈ names ps, r.getParameterValues name = some (valuesOf ps name)
  first : ∀ name ∈ names ps, r.getParameter name = (valuesOf ps name).head?
  values_null : ∀ name, r.getParameterValues name = none ↔ name ∉ names ps
  first_null : ∀ name, r.getParameter name = none ↔ name ∉ names ps
  names_nodup : (r.getParameterNames ko).Nodup
  mem_names : ∀ name, name ∈ r.getParameterNames ko ↔ name ∈ names ps

section Split
variable {c : UInt16} {s : JavaString}

theorem split_of_ne_nil (hs : s ≠ []) : split c s = (s.splitOn c).rdropWhile List.isEmpty := by
  unfold split
  split
  · rfl
  · next hc =>
    have hmem : c ∉ s := by simpa using hc
    rw [List.splitOn_eq_singleton hmem, List.rdropWhile_singleton, if_neg (by simpa using hs)]

/-- Splitting undoes joining when the last piece is not empty. -/
theorem split_intercalate {ls : List JavaString} (hls : ls ≠ []) (hmem : ∀ l ∈ ls, c ∉ l)
    (hlast : ls.getLast hls ≠ []) : split c ([c].intercalate ls) = ls := by
  have hsplit : ([c].intercalate ls).splitOn c = ls := List.splitOn_intercalate c hmem hls
  have hne : [c].intercalate ls ≠ [] := by
    intro h
    rw [h, List.splitOn_nil] at hsplit
    subst hsplit
    exact hlast rfl
  rw [split_of_ne_nil hne, hsplit, List.rdropWhile_eq_self_iff]
  intro _
  simpa using hlast

end Split

section Parse
variable {ps : List Parameter} (m : AList fun _ : JavaString => Values)

theorem ampersand_notMem_text (p : Parameter) : ampersand ∉ p.text := by
  simp only [Parameter.text, List.mem_append, List.mem_cons, not_or]
  exact ⟨p.name_plain.1, by decide, p.value_plain.1⟩

theorem text_ne_nil (p : Parameter) : p.text ≠ [] := by simp [Parameter.text]

theorem split_queryOf (hps : ps ≠ []) : split ampersand (queryOf ps) = ps.map Parameter.text := by
  apply split_intercalate (by simpa using hps)
  · intro l hl
    obtain ⟨p, -, rfl⟩ := List.mem_map.1 hl
    exact ampersand_notMem_text p
  · rw [List.getLast_map]
    exact text_ne_nil _

theorem split_text (p : Parameter) :
    split equalsSign p.text = if p.value = [] then [p.name] else [p.name, p.value] := by
  have hpieces : p.text.splitOn equalsSign = [p.name, p.value] := by
    rw [Parameter.text, List.splitOn_append_cons_self_of_not_mem p.name_plain.2,
      List.splitOn_eq_singleton p.value_plain.2]
  rw [split_of_ne_nil (text_ne_nil p), hpieces]
  split
  · next hv => simp [hv, List.rdropWhile, p.name_nonempty]
  · next hv => simp [List.rdropWhile, hv]

/-- What the constructor does with a parameter it was made of. -/
def store (m : AList fun _ : JavaString => Values) (p : Parameter) :
    AList fun _ : JavaString => Values :=
  if p.value = [] then m else m.insert p.name (.single p.value)

theorem addParameter_text (p : Parameter) : addParameter m p.text = store m p := by
  unfold addParameter store
  by_cases hv : p.value = [] <;> simp [split_text, hv]

theorem parameters_new (method : JavaString) :
    (TowaRequest.new method (queryOf ps)).parameters = ps.foldl store ∅ := by
  cases ps with
  | nil => rfl
  | cons p rest =>
    simp only [TowaRequest.new, split_queryOf (List.cons_ne_nil p rest), List.foldl_map,
      addParameter_text]

end Parse

section Stored
variable {ps : List Parameter} {name : JavaString}

def kept (vs : List JavaString) : List JavaString := vs.filter (· ≠ [])

theorem kept_cons (v : JavaString) (vs : List JavaString) :
    kept (v :: vs) = if v = [] then kept vs else v :: kept vs := by
  by_cases hv : v = [] <;> simp [kept, hv]

theorem valuesOf_cons (p : Parameter) :
    valuesOf (p :: ps) name =
      if p.name = name then p.value :: valuesOf ps name else valuesOf ps name := by
  by_cases h : p.name = name <;> simp [valuesOf, h]

/-- The last value that is not empty is the one kept. -/
theorem lookup_foldl_store (m : AList fun _ : JavaString => Values) :
    (ps.foldl store m).lookup name =
      ((kept (valuesOf ps name)).getLast?.map Values.single).or (m.lookup name) := by
  induction ps generalizing m with
  | nil => rfl
  | cons p rest ih =>
    rw [List.foldl_cons, ih, valuesOf_cons]
    by_cases hv : p.value = []
    · by_cases hn : p.name = name <;> simp [store, kept_cons, hv, hn]
    · by_cases hn : p.name = name
      · rw [store, if_neg hv, if_pos hn, kept_cons, if_neg hv, List.getLast?_cons, hn,
          AList.lookup_insert]
        cases (kept (valuesOf rest name)).getLast? <;> rfl
      · rw [store, if_neg hv, if_neg hn, AList.lookup_insert_ne (Ne.symm hn)]

theorem lookup_new (method : JavaString) :
    (TowaRequest.new method (queryOf ps)).parameters.lookup name =
      (kept (valuesOf ps name)).getLast?.map Values.single := by
  rw [parameters_new, lookup_foldl_store, AList.lookup_empty, Option.or_none]

theorem mem_names_iff : name ∈ names ps ↔ valuesOf ps name ≠ [] := by
  simp [names, valuesOf, List.filter_eq_nil_iff]

theorem valuesOf_length : (valuesOf ps name).length = (names ps).count name := by
  rw [valuesOf, List.length_map, names, List.count, List.countP_map, List.countP_eq_length_filter]
  rfl

theorem mem_valuesOf {v : JavaString} :
    v ∈ valuesOf ps name ↔ ∃ p ∈ ps, p.name = name ∧ p.value = v := by
  simp [valuesOf, and_assoc]

theorem single_values_iff :
    (∀ name ∈ names ps, ∃ v, v ≠ [] ∧ valuesOf ps name = [v]) ↔
      (names ps).Nodup ∧ ∀ p ∈ ps, p.value ≠ [] := by
  constructor
  · intro h
    refine ⟨List.nodup_iff_count_le_one.2 fun name => ?_, fun p hp => ?_⟩
    · rw [← valuesOf_length]
      by_cases hname : name ∈ names ps
      · obtain ⟨v, -, hv⟩ := h name hname
        rw [hv, List.length_singleton]
      · rw [mem_names_iff, not_not] at hname
        rw [hname]
        exact Nat.zero_le _
    · obtain ⟨v, hne, hv⟩ := h p.name (List.mem_map_of_mem hp)
      have hmem : p.value ∈ valuesOf ps p.name := mem_valuesOf.2 ⟨p, hp, rfl, rfl⟩
      rw [hv, List.mem_singleton] at hmem
      rwa [hmem]
  · rintro ⟨hnodup, hvalues⟩ name hname
    have hlen : (valuesOf ps name).length = 1 := by
      rw [valuesOf_length, List.count_eq_one_of_mem hnodup hname]
    obtain ⟨v, hv⟩ := List.length_eq_one_iff.1 hlen
    obtain ⟨p, hp, -, rfl⟩ := mem_valuesOf.1 (hv ▸ List.mem_singleton_self v)
    exact ⟨p.value, hvalues p hp, hv⟩

end Stored

section Contract
variable {ps : List Parameter} {ko : KeyOrder} {r : TowaRequest}

theorem Contract.single {method : JavaString}
    (h : Contract ps ko (TowaRequest.new method (queryOf ps))) {name : JavaString}
    (hname : name ∈ names ps) : ∃ v, v ≠ [] ∧ valuesOf ps name = [v] := by
  have hvalues := h.values name hname
  rw [TowaRequest.getParameterValues, lookup_new, Option.map_map, Option.map_eq_some_iff] at hvalues
  obtain ⟨v, hlast, hv⟩ := hvalues
  have hmem : v ∈ kept (valuesOf ps name) := List.mem_of_getLast? hlast
  exact ⟨v, by simpa using (List.mem_filter.1 hmem).2, hv.symm⟩

theorem contract_of_lookup (h : ∀ name, r.parameters.lookup name =
      if name ∈ names ps then (valuesOf ps name).head?.map Values.single else none)
    (hsingle : ∀ name ∈ names ps, ∃ v, valuesOf ps name = [v]) : Contract ps ko r where
  values := by
    intro name hname
    obtain ⟨v, hv⟩ := hsingle name hname
    simp [TowaRequest.getParameterValues, h, hname, hv, Values.single]
  first := by
    intro name hname
    obtain ⟨v, hv⟩ := hsingle name hname
    simp [TowaRequest.getParameter, h, hname, hv, Values.single]
  values_null := by
    intro name
    by_cases hname : name ∈ names ps
    · obtain ⟨v, hv⟩ := hsingle name hname
      simp [TowaRequest.getParameterValues, h, hname, hv]
    · simp [TowaRequest.getParameterValues, h, hname]
  first_null := by
    intro name
    by_cases hname : name ∈ names ps
    · obtain ⟨v, hv⟩ := hsingle name hname
      simp [TowaRequest.getParameter, h, hname, hv]
    · simp [TowaRequest.getParameter, h, hname]
  names_nodup := (ko.perm _).nodup_iff.2 r.parameters.keys_nodup
  mem_names := by
    intro name
    rw [TowaRequest.getParameterNames, (ko.perm _).mem_iff, ← AList.mem_keys,
      ← AList.lookup_isSome, h]
    by_cases hname : name ∈ names ps
    · obtain ⟨v, hv⟩ := hsingle name hname
      simp [hname, hv]
    · simp [hname]

/-- The servlet gets what it is promised exactly when no name comes twice and no value is empty. -/
theorem contract_iff (method : JavaString) (ps : List Parameter) (ko : KeyOrder) :
    Contract ps ko (TowaRequest.new method (queryOf ps)) ↔
      (names ps).Nodup ∧ ∀ p ∈ ps, p.value ≠ [] := by
  rw [← single_values_iff]
  constructor
  · intro h name hname
    exact h.single hname
  · intro h
    apply contract_of_lookup
    · intro name
      rw [lookup_new]
      split
      · next hname =>
        obtain ⟨v, hne, hv⟩ := h name hname
        simp [kept, hv, hne]
      · next hname =>
        rw [mem_names_iff, not_not] at hname
        simp [kept, hname]
    · intro name hname
      obtain ⟨v, -, hv⟩ := h name hname
      exact ⟨v, hv⟩

def plainLetter (u : UInt16) (h : Plain [u]) (value : JavaString) (hv : Plain value) : Parameter :=
  ⟨[u], value, List.cons_ne_nil u [], h, hv⟩

def KeyOrder.asStored : KeyOrder := ⟨id, List.Perm.refl⟩

/-- `a=1&a=2` leaves only `2` of the name `a`, and `a=` leaves nothing of it. -/
theorem values_lost :
    let a : UInt16 := 0x61
    let a1 := plainLetter a (by decide) [0x31] (by decide)
    let a2 := plainLetter a (by decide) [0x32] (by decide)
    let a0 := plainLetter a (by decide) [] (by decide)
    queryOf [a1, a2] = [0x61, 0x3D, 0x31, 0x26, 0x61, 0x3D, 0x32] ∧
      (TowaRequest.new [] (queryOf [a1, a2])).getParameterValues [a] = some [[0x32]] ∧
      ¬Contract [a1, a2] .asStored (TowaRequest.new [] (queryOf [a1, a2])) ∧
      (TowaRequest.new [] (queryOf [a0])).getParameter [a] = none ∧
      ¬Contract [a0] .asStored (TowaRequest.new [] (queryOf [a0])) := by
  intro a a1 a2 a0
  refine ⟨by decide, by decide, fun h => ?_, by decide, fun h => ?_⟩
  · exact absurd (h.values [a] (by decide)) (by decide)
  · exact absurd (h.values [a] (by decide)) (by decide)

end Contract

end TowaParameters
