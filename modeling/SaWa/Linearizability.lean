import Mathlib.Data.List.Basic
import Mathlib.Logic.Function.Basic
import Mathlib.Order.Nat

/-! Histories of an object that several clients share. Each client asks for one operation at a
time and is answered some time later; a history is linearizable when the operations could have
been served one after the other, each at a moment between its two ends. -/
namespace Linearizability

/-- What is seen of an operation: its two ends. -/
inductive Event (Op Ret : Type) where
  | ask (op : Op)
  | answer (r : Ret)
  deriving DecidableEq, Repr

abbrev History (ι Op Ret : Type) := List (ι × Event Op Ret)

structure Operation (ι Op Ret : Type) where
  client : ι
  op : Op
  ret : Ret
  deriving DecidableEq, Repr

/-- The object by itself: an operation in a state may have this answer and lead to that state. -/
abbrev Spec (Op Ret St : Type) := Op → St → Ret → St → Prop

variable {ι Op Ret St : Type} {spec : Spec Op Ret St} {x x₀ y z : St}

/-- The operations are served one after the other. -/
def Spec.Runs (spec : Spec Op Ret St) : St → List (Operation ι Op Ret) → St → Prop
  | x, [], y => y = x
  | x, o :: os, z => ∃ y, spec o.op x o.ret y ∧ spec.Runs y os z

theorem runs_append {os os' : List (Operation ι Op Ret)} :
    spec.Runs x (os ++ os') z ↔ ∃ y, spec.Runs x os y ∧ spec.Runs y os' z := by
  induction os generalizing x with
  | nil => simp [Spec.Runs]
  | cons o os ih =>
    simp only [List.cons_append, Spec.Runs, ih]
    constructor
    · rintro ⟨w, hw, y, hy, hz⟩
      exact ⟨y, ⟨w, hw, hy⟩, hz⟩
    · rintro ⟨y, ⟨w, hw, hy⟩, hz⟩
      exact ⟨w, hw, y, hy, hz⟩

theorem runs_snoc {os : List (Operation ι Op Ret)} {o : Operation ι Op Ret}
    (h : spec.Runs x os y) (ho : spec o.op y o.ret z) : spec.Runs x (os ++ [o]) z :=
  runs_append.mpr ⟨y, h, z, ho, rfl⟩

def Event.op? : Event Op Ret → Option Op
  | .ask op => some op
  | .answer _ => none

def Event.ret? : Event Op Ret → Option Ret
  | .ask _ => none
  | .answer r => some r

variable [DecidableEq ι]

/-- What one client has asked for, in order. -/
def asks (i : ι) (H : History ι Op Ret) : List Op :=
  H.filterMap fun e => if e.1 = i then e.2.op? else none

/-- What one client has been answered, in order. -/
def answers (i : ι) (H : History ι Op Ret) : List Ret :=
  H.filterMap fun e => if e.1 = i then e.2.ret? else none

/-- The operations of one client among those that were served. -/
def servedTo (i : ι) (os : List (Operation ι Op Ret)) : List (Op × Ret) :=
  (os.filter fun o => o.client = i).map fun o => (o.op, o.ret)

section Lists
variable (i j : ι) (H H' : History ι Op Ret) (os os' : List (Operation ι Op Ret)) (op : Op)
  (r : Ret)

@[simp] theorem asks_append : asks i (H ++ H') = asks i H ++ asks i H' := List.filterMap_append

@[simp] theorem answers_append : answers i (H ++ H') = answers i H ++ answers i H' :=
  List.filterMap_append

@[simp] theorem servedTo_append : servedTo i (os ++ os') = servedTo i os ++ servedTo i os' := by
  simp [servedTo]

@[simp] theorem asks_nil : asks i ([] : History ι Op Ret) = [] := rfl
@[simp] theorem answers_nil : answers i ([] : History ι Op Ret) = [] := rfl
@[simp] theorem servedTo_nil : servedTo i ([] : List (Operation ι Op Ret)) = [] := rfl

@[simp] theorem asks_ask : asks i [(j, (.ask op : Event Op Ret))] = if j = i then [op] else [] := by
  by_cases h : j = i <;> simp [asks, Event.op?, h]

@[simp] theorem asks_answer : asks i [(j, (.answer r : Event Op Ret))] = [] := by
  simp [asks, Event.op?]

@[simp] theorem answers_ask : answers i [(j, (.ask op : Event Op Ret))] = [] := by
  simp [answers, Event.ret?]

@[simp] theorem answers_answer :
    answers i [(j, (.answer r : Event Op Ret))] = if j = i then [r] else [] := by
  by_cases h : j = i <;> simp [answers, Event.ret?, h]

theorem asks_other (h : j ≠ i) (e : Event Op Ret) : asks i [(j, e)] = [] := by
  simp [asks, h]

theorem answers_other (h : j ≠ i) (e : Event Op Ret) : answers i [(j, e)] = [] := by
  simp [answers, h]

/-- The answer of one client that a call may show. -/
theorem answers_shown (e : Option (Event Op Ret)) :
    answers i (e.toList.map (Prod.mk j)) = if j = i then (e.bind Event.ret?).toList else [] := by
  rcases e with _ | _ | _ <;> simp [Event.ret?]

@[simp] theorem servedTo_one :
    servedTo i [(⟨j, op, r⟩ : Operation ι Op Ret)] = if j = i then [(op, r)] else [] := by
  by_cases h : j = i <;> simp [servedTo, h]

end Lists

/-- The operations served are between those that have been answered and those that have been asked
for, for every client and in its order. -/
structure Fits (H : History ι Op Ret) (os : List (Operation ι Op Ret)) : Prop where
  answered : ∀ i, answers i H <+: (servedTo i os).map Prod.snd
  asked : ∀ i, (servedTo i os).map Prod.fst <+: asks i H

/-- The operations in `os` explain the history. At every moment of it those served so far are the
first of them, so that an operation answered before another is asked for comes before it. -/
structure Linearizes (spec : Spec Op Ret St) (x : St) (H : History ι Op Ret)
    (os : List (Operation ι Op Ret)) (y : St) : Prop where
  legal : spec.Runs x os y
  in_time : ∀ H', H' <+: H → ∃ os', os' <+: os ∧ Fits H' os'
  whole : Fits H os

/-! ### The object and its clients -/

inductive Client (Op Ret : Type) where
  | idle
  | asked (op : Op)
  | served (r : Ret)

/-- A step for one client, with the event that is seen of it. -/
inductive Moves (spec : Spec Op Ret St) :
    St → Client Op Ret → Option (Event Op Ret) → St → Client Op Ret → Prop where
  | stay (x q) : Moves spec x q none x q
  | ask (x op) : Moves spec x .idle (some (.ask op)) x (.asked op)
  | serve (x op r y) (h : spec op x r y) : Moves spec x (.asked op) none y (.served r)
  | answer (x r) : Moves spec x (.served r) (some (.answer r)) x .idle
  | reply (x op r y) (h : spec op x r y) : Moves spec x (.asked op) (some (.answer r)) y .idle

/-- How far a client is with its last operation. -/
def Client.At (i : ι) (H : History ι Op Ret) (os : List (Operation ι Op Ret)) :
    Client Op Ret → Prop
  | .idle => answers i H = (servedTo i os).map Prod.snd ∧ (servedTo i os).map Prod.fst = asks i H
  | .asked op =>
    answers i H = (servedTo i os).map Prod.snd ∧ (servedTo i os).map Prod.fst ++ [op] = asks i H
  | .served r =>
    answers i H ++ [r] = (servedTo i os).map Prod.snd ∧ (servedTo i os).map Prod.fst = asks i H

/-- The operations served explain what has been seen of the clients so far. -/
structure Explains (spec : Spec Op Ret St) (x : St) (H : History ι Op Ret) (q : ι → Client Op Ret)
    (os : List (Operation ι Op Ret)) (y : St) : Prop where
  legal : spec.Runs x os y
  in_time : ∀ H', H' <+: H → ∃ os', os' <+: os ∧ Fits H' os'
  clients : ∀ i, (q i).At i H os

section Explains
variable {H : History ι Op Ret} {q : ι → Client Op Ret} {os : List (Operation ι Op Ret)} {i : ι}
  {op : Op} {r : Ret}

theorem fits_of_clients (h : ∀ i, (q i).At i H os) : Fits H os := by
  constructor
  · intro i
    have hi := h i
    cases hq : q i with
    | idle =>
      rw [hq] at hi
      exact hi.1 ▸ List.prefix_rfl
    | asked op =>
      rw [hq] at hi
      exact hi.1 ▸ List.prefix_rfl
    | served r =>
      rw [hq] at hi
      exact ⟨[r], hi.1⟩
  · intro i
    have hi := h i
    cases hq : q i with
    | idle =>
      rw [hq] at hi
      exact hi.2 ▸ List.prefix_rfl
    | asked op =>
      rw [hq] at hi
      exact ⟨[op], hi.2⟩
    | served r =>
      rw [hq] at hi
      exact hi.2 ▸ List.prefix_rfl

/-- What is seen of one client does not move the others. -/
theorem Client.At.event {j : ι} {p : Client Op Ret} (h : p.At j H os) (hji : j ≠ i)
    (e : Event Op Ret) : p.At j (H ++ [(i, e)]) os := by
  have hasks : asks j (H ++ [(i, e)]) = asks j H := by
    rw [asks_append, asks_other j i (Ne.symm hji), List.append_nil]
  have hanswers : answers j (H ++ [(i, e)]) = answers j H := by
    rw [answers_append, answers_other j i (Ne.symm hji), List.append_nil]
  cases p <;> simpa only [Client.At, hasks, hanswers] using h

/-- Nor does what is served to it. -/
theorem Client.At.serve {j : ι} {p : Client Op Ret} (h : p.At j H os) (hji : j ≠ i) (op : Op)
    (r : Ret) : p.At j H (os ++ [⟨i, op, r⟩]) := by
  have hserved : servedTo j (os ++ [⟨i, op, r⟩]) = servedTo j os := by
    rw [servedTo_append, servedTo_one, if_neg (Ne.symm hji), List.append_nil]
  cases p <;> simpa only [Client.At, hserved] using h

theorem explains_start (x : St) :
    Explains spec x ([] : History ι Op Ret) (fun _ => .idle) [] x := by
  refine ⟨rfl, ?_, fun _ => ⟨rfl, rfl⟩⟩
  intro H' hH'
  obtain rfl := List.prefix_nil.mp hH'
  exact ⟨[], List.nil_prefix, fits_of_clients (q := fun _ => .idle) fun _ => ⟨rfl, rfl⟩⟩

theorem Explains.linearizes (h : Explains spec x H q os y) : Linearizes spec x H os y :=
  ⟨h.legal, h.in_time, fits_of_clients h.clients⟩

/-- An event is seen, and nothing is served. -/
theorem Explains.event (h : Explains spec x H q os y) {e : ι × Event Op Ret}
    {q' : ι → Client Op Ret} (hq : ∀ j, (q' j).At j (H ++ [e]) os) :
    Explains spec x (H ++ [e]) q' os y := by
  refine ⟨h.legal, ?_, hq⟩
  intro H' hH'
  rcases List.prefix_concat_iff.mp hH' with rfl | hbefore
  · exact ⟨os, List.prefix_rfl, fits_of_clients hq⟩
  · exact h.in_time H' hbefore

theorem Explains.ask (h : Explains spec x H q os y) (hi : q i = .idle) (op : Op) :
    Explains spec x (H ++ [(i, .ask op)]) (Function.update q i (.asked op)) os y := by
  apply h.event
  intro j
  have hj := h.clients j
  by_cases hji : j = i
  · subst hji
    rw [hi] at hj
    simp only [Function.update_self, Client.At, asks_append, answers_append, asks_ask, answers_ask,
      if_true, List.append_nil, hj.2]
    exact ⟨hj.1, trivial⟩
  · rw [Function.update_of_ne hji]
    exact hj.event hji _

theorem Explains.answer (h : Explains spec x H q os y) (hi : q i = .served r) :
    Explains spec x (H ++ [(i, .answer r)]) (Function.update q i .idle) os y := by
  apply h.event
  intro j
  have hj := h.clients j
  by_cases hji : j = i
  · subst hji
    rw [hi] at hj
    simp only [Function.update_self, Client.At, asks_append, answers_append, asks_answer,
      answers_answer, if_true, List.append_nil]
    exact hj
  · rw [Function.update_of_ne hji]
    exact hj.event hji _

theorem Explains.serve (h : Explains spec x H q os y) (hi : q i = .asked op) (hs : spec op y r z) :
    Explains spec x H (Function.update q i (.served r)) (os ++ [⟨i, op, r⟩]) z := by
  refine ⟨runs_snoc h.legal hs, ?_, ?_⟩
  · intro H' hH'
    obtain ⟨os', hos', hfits⟩ := h.in_time H' hH'
    exact ⟨os', hos'.trans (List.prefix_append _ _), hfits⟩
  · intro j
    have hj := h.clients j
    by_cases hji : j = i
    · subst hji
      rw [hi] at hj
      simp only [Function.update_self, Client.At, servedTo_append, servedTo_one, if_true,
        List.map_append, List.map_cons, List.map_nil, hj.1]
      exact ⟨trivial, hj.2⟩
    · rw [Function.update_of_ne hji]
      exact hj.serve hji op r

/-- Whatever is done for a client, the history stays explained. -/
theorem Explains.moves {e : Option (Event Op Ret)} {q' : Client Op Ret}
    (h : Explains spec x H q os y) (hm : Moves spec y (q i) e z q') :
    ∃ os', Explains spec x (H ++ e.toList.map (Prod.mk i)) (Function.update q i q') os' z := by
  generalize hi : q i = qi at hm
  cases hm with
  | stay =>
    rw [← hi, Function.update_eq_self]
    exact ⟨os, by simpa using h⟩
  | ask op => exact ⟨os, h.ask hi op⟩
  | serve op r _ hs => exact ⟨_, by simpa using h.serve hi hs⟩
  | answer r => exact ⟨os, h.answer hi⟩
  | reply op r _ hs =>
    have hserved := h.serve hi hs
    have hanswered := hserved.answer (i := i) (r := r) (Function.update_self _ _ _)
    rw [Function.update_idem] at hanswered
    exact ⟨_, hanswered⟩

end Explains

/-! ### The order of operations in time -/

section Between
variable {H H₀ H₁ H₂ H₃ : History ι Op Ret} {os A L : List (Operation ι Op Ret)} {i j : ι} {n m : ℕ}

theorem servedTo_mono (h : A <+: L) (i : ι) : servedTo i A <+: servedTo i L := by
  obtain ⟨B, rfl⟩ := h
  rw [servedTo_append]
  exact List.prefix_append _ _

/-- Where the operation of this number is among those of all clients. -/
theorem exists_split (h : n < (servedTo i L).length) :
    ∃ A o C, L = A ++ o :: C ∧ o.client = i ∧ (servedTo i A).length = n := by
  induction L generalizing n with
  | nil => simp at h
  | cons o L ih =>
    rw [← List.singleton_append, servedTo_append] at h
    by_cases ho : o.client = i
    · cases n with
      | zero => exact ⟨[], o, L, rfl, ho, rfl⟩
      | succ n =>
        have hone : (servedTo i [o]).length = 1 := by simp [servedTo, ho]
        rw [List.length_append, hone] at h
        obtain ⟨A, o', C, rfl, ho', hlen⟩ := ih (n := n) (by omega)
        refine ⟨o :: A, o', C, rfl, ho', ?_⟩
        rw [← List.singleton_append, servedTo_append, List.length_append, hone, hlen]
        omega
    · have hnone : servedTo i [o] = [] := by simp [servedTo, ho]
      rw [hnone, List.nil_append] at h
      obtain ⟨A, o', C, rfl, ho', hlen⟩ := ih h
      refine ⟨o :: A, o', C, rfl, ho', ?_⟩
      rw [← List.singleton_append, servedTo_append, hnone]
      exact hlen

theorem servedTo_snoc (A : List (Operation ι Op Ret)) (o : Operation ι Op Ret) :
    servedTo o.client (A ++ [o]) = servedTo o.client A ++ [(o.op, o.ret)] := by
  simp [servedTo]

theorem Fits.asked_le (h : Fits H L) (i : ι) : (servedTo i L).length ≤ (asks i H).length := by
  simpa using (h.asked i).length_le

theorem Fits.answered_le (h : Fits H L) (i : ι) : (answers i H).length ≤ (servedTo i L).length := by
  simpa using (h.answered i).length_le

theorem getElem?_mono {α : Type} {l l' : List α} {a : α} (h : l <+: l') (hn : l[n]? = some a) :
    l'[n]? = some a := by
  obtain ⟨rest, rfl⟩ := h
  rw [List.getElem?_append_left (List.getElem?_eq_some_iff.mp hn).1]
  exact hn

theorem servedTo_at {o : Operation ι Op Ret} (ho : A ++ [o] <+: os) :
    (servedTo o.client os)[(servedTo o.client A).length]? = some (o.op, o.ret) := by
  apply getElem?_mono (servedTo_mono ho o.client)
  rw [servedTo_snoc, List.getElem?_append_right (Nat.le_refl _), Nat.sub_self]
  rfl

/-- The operation with `A` before it is the one that was asked for with that number. -/
theorem Fits.asked_at (h : Fits H os) {o : Operation ι Op Ret} (ho : A ++ [o] <+: os) :
    (asks o.client H)[(servedTo o.client A).length]? = some o.op := by
  apply getElem?_mono (h.asked o.client)
  rw [List.getElem?_map, servedTo_at ho]
  rfl

/-- So is its answer, once there is one. -/
theorem Fits.answered_at (h : Fits H os) {o : Operation ι Op Ret} (ho : A ++ [o] <+: os) {r : Ret}
    (hr : (answers o.client H)[(servedTo o.client A).length]? = some r) : o.ret = r := by
  have hret := getElem?_mono (h.answered o.client) hr
  rw [List.getElem?_map, servedTo_at ho] at hret
  exact Option.some.inj hret

/-- What has not been asked for is not served. -/
theorem Fits.before (h : Fits H L) (hL : L <+: os) {o : Operation ι Op Ret} (ho : A ++ [o] <+: os)
    (hlate : (asks o.client H).length ≤ (servedTo o.client A).length) : L <+: A := by
  have hnot : ¬ A ++ [o] <+: L := by
    intro hle
    have hlen := (servedTo_mono hle o.client).length_le.trans (h.asked_le o.client)
    rw [servedTo_snoc, List.length_append, List.length_singleton] at hlen
    omega
  rcases List.prefix_or_prefix_of_prefix hL ho with hle | hle
  · rcases List.prefix_concat_iff.mp hle with rfl | hle
    · exact absurd List.prefix_rfl hnot
    · exact hle
  · exact absurd hle hnot

/-- The operation of client `i` with number `n` is `op`. It is asked for after `K` and answered in
`K'`. -/
structure Within (H : History ι Op Ret) (i : ι) (n : ℕ) (op : Op) (K K' : History ι Op Ret) :
    Prop where
  is_asked : (asks i H)[n]? = some op
  after : (asks i K).length ≤ n
  answered : n < (answers i K').length

/-- One operation has been answered before another is asked for. Then it is served first, and what
is served in between is asked for before the second is answered, and not yet answered when the
first is asked for. -/
theorem Linearizes.between (h : Linearizes spec x H os y) (hH : H = H₀ ++ H₁ ++ H₂ ++ H₃)
    {op op' : Op} {r : Ret} (hop : Within H i n op H₀ (H₀ ++ H₁))
    (hop' : Within H j m op' (H₀ ++ H₁) (H₀ ++ H₁ ++ H₂)) (hr : (answers j H)[m]? = some r) :
    ∃ A ret B C, os = A ++ ⟨i, op, ret⟩ :: B ++ ⟨j, op', r⟩ :: C ∧
      ∀ o ∈ B, ∃ p, (asks o.client H)[p]? = some o.op ∧ (answers o.client H₀).length ≤ p ∧
        p < (asks o.client (H₀ ++ H₁ ++ H₂)).length ∧ (o.client, p) ≠ (i, n) := by
  obtain ⟨L₀, hL₀, hfits₀⟩ := h.in_time H₀ (by simp [hH, List.append_assoc])
  obtain ⟨L₁, hL₁, hfits₁⟩ := h.in_time (H₀ ++ H₁) (by simp [hH, List.append_assoc])
  obtain ⟨L₂, hL₂, hfits₂⟩ := h.in_time (H₀ ++ H₁ ++ H₂) (by simp [hH])
  obtain ⟨A, a, C₁, rfl, rfl, hA⟩ := exists_split (hop.answered.trans_le (hfits₁.answered_le i))
  obtain ⟨A', b, C₂, rfl, rfl, hA'⟩ := exists_split (hop'.answered.trans_le (hfits₂.answered_le j))
  have ha : A ++ [a] <+: os := .trans ⟨C₁, by simp⟩ hL₁
  have hb : A' ++ [b] <+: os := .trans ⟨C₂, by simp⟩ hL₂
  obtain rfl : a.op = op := by
    have hat := h.whole.asked_at ha
    rw [hA] at hat
    exact Option.some.inj (hat.symm.trans hop.is_asked)
  obtain rfl : b.op = op' := by
    have hat := h.whole.asked_at hb
    rw [hA'] at hat
    exact Option.some.inj (hat.symm.trans hop'.is_asked)
  obtain rfl : b.ret = r := h.whole.answered_at hb (hA'.symm ▸ hr)
  -- The second operation is not asked for in `H₁`, so it comes after all that is served there.
  obtain ⟨B, rfl⟩ := hfits₁.before hL₁ hb (hop'.after.trans hA'.ge)
  obtain ⟨C, rfl⟩ := hL₂
  refine ⟨A, a.ret, C₁ ++ B, C₂ ++ C, by simp, ?_⟩
  intro o ho
  obtain ⟨B₁, B₂, hB⟩ := List.append_of_mem ho
  have hserved : A ++ [a] ++ B₁ ++ [o] <+: A ++ a :: C₁ ++ B ++ b :: C₂ :=
    ⟨B₂ ++ b :: C₂, by simp [hB]⟩
  refine ⟨(servedTo o.client (A ++ [a] ++ B₁)).length, ?_, ?_, ?_, ?_⟩
  · exact h.whole.asked_at (hserved.trans (List.prefix_append _ _))
  · -- What is answered in `H₀` is served before the first operation.
    have hle : L₀ <+: A ++ [a] ++ B₁ :=
      (hfits₀.before hL₀ ha (hop.after.trans hA.ge)).trans ⟨[a] ++ B₁, by simp⟩
    exact (hfits₀.answered_le o.client).trans (servedTo_mono hle o.client).length_le
  · have hlen := (servedTo_mono hserved o.client).length_le.trans (hfits₂.asked_le o.client)
    rw [servedTo_snoc, List.length_append, List.length_singleton] at hlen
    exact hlen
  · intro heq
    obtain ⟨hclient, hn⟩ := Prod.mk.inj heq
    rw [hclient, servedTo_append, servedTo_snoc] at hn
    simp only [List.length_append, List.length_singleton] at hn
    omega

end Between

end Linearizability
