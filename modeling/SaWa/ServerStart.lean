import SaWa.EffectProgram
import SaWa.ThreadPool
import Mathlib.Data.List.TakeWhile

/-! `Server::start`: connections are accepted and passed to the pool for as long as the descriptor
that `accept` returns, read as a truth value, is true. -/
namespace ServerStart

open EffectProgram ThreadPool

def failureAccept : ℕ := 0x102

inductive Call where
  | listen
  | screenInit
  | accept
  | debug (clientSock : ℤ)
  | handleNewConnection (clientSock : ℤ)

abbrev Answer : Call → Type
  | .listen | .accept => ℤ
  | _ => Unit

abbrev StartM := Prog Call Answer

/-- The condition of the loop and its body. The last descriptor is what the loop leaves behind. -/
def acceptRound (_ : Unit) : StartM (Unit ⊕ ℤ) := do
  let (clientSock : ℤ) ← perform Call.accept
  if clientSock ≠ 0 then
    let _ ← perform (Call.debug clientSock)
    let _ ← perform (Call.handleNewConnection clientSock)
    return .inl ()
  else return .inr clientSock

/-- The server for at most `fuel` calls of `accept`; `none` when it is still in the loop. -/
def start (fuel : ℕ) : StartM (Option (Except ℕ Unit)) := do
  let _ ← perform Call.listen
  let _ ← perform Call.screenInit
  match ← loop acceptRound fuel () with
  | none => return none
  | some clientSock => return some (if clientSock < 0 then .error failureAccept else .ok ())

/-- The calls of `accept` so far, and the pool. -/
abbrev World := ℕ × Pool

/-- `accept` returns one result after another; `supply` has for each connection the object that
`new` would return for it and the result of `pthread_create`. -/
def acceptHandler (results : ℕ → ℤ) (supply : ℕ → Addr × ℤ) : Handler Call Answer World
  | .listen, w => ((0 : ℤ), w)
  | .accept, (n, p) => (results n, (n + 1, p))
  | .handleNewConnection sock, (n, p) =>
    ((), (n, p.handleNewConnection sock (supply n).1 (supply n).2))
  | .screenInit, w => ((), w)
  | .debug _, w => ((), w)

/-- What a call passes to the pool. -/
def passed : Call × World → Option ℤ
  | (.handleNewConnection sock, _) => some sock
  | _ => none

/-- Up to any number of calls of `accept`: the descriptors before the first negative result, and
they alone, have been passed to the pool, and the server has failed once there is such a result. -/
structure AcceptsRight (results : ℕ → ℤ) (supply : ℕ → Addr × ℤ) (p : Pool) : Prop where
  passes : ∀ fuel, observe passed (acceptHandler results supply) (start fuel) (0, p) =
    ((List.range fuel).map results).takeWhile (0 ≤ ·)
  ends : ∀ fuel, (run (acceptHandler results supply) (start fuel) (0, p)).1 =
    if ∃ k < fuel, results k < 0 then some (.error failureAccept) else none

section Accept
variable {results : ℕ → ℤ} {supply : ℕ → Addr × ℤ}

/-- The world after a result that is passed to the pool. -/
def fed (results : ℕ → ℤ) (supply : ℕ → Addr × ℤ) (n : ℕ) (p : Pool) : World :=
  (n + 1, p.handleNewConnection (results n) (supply (n + 1)).1 (supply (n + 1)).2)

/-- Any descriptor but 0 goes to the pool, a negative one as well. -/
theorem round_passes {n : ℕ} (hn : results n ≠ 0) (p : Pool) :
    run (acceptHandler results supply) (acceptRound ()) (n, p) =
        (.inl (), fed results supply n p) ∧
      observe passed (acceptHandler results supply) (acceptRound ()) (n, p) = [results n] := by
  have hcalls : calls (acceptHandler results supply) (acceptRound ()) (n, p) =
      [(.accept, n, p), (.debug (results n), n + 1, p),
        (.handleNewConnection (results n), n + 1, p)] := by
    simp [acceptRound, acceptHandler, hn]
  constructor
  · simp [acceptRound, acceptHandler, fed, hn]
  · rw [observe, hcalls]
    rfl

theorem round_leaves {n : ℕ} (hn : results n = 0) (p : Pool) :
    run (acceptHandler results supply) (acceptRound ()) (n, p) = (.inr 0, (n + 1, p)) ∧
      observe passed (acceptHandler results supply) (acceptRound ()) (n, p) = [] := by
  simp [acceptRound, acceptHandler, observe, passed, hn]

/-- Everything up to the first zero is passed on. -/
theorem loop_passes (fuel n : ℕ) (p : Pool) :
    observe passed (acceptHandler results supply) (loop acceptRound fuel ()) (n, p) =
      ((List.range' n fuel).map results).takeWhile (· ≠ 0) := by
  induction fuel generalizing n p with
  | zero => rfl
  | succ fuel ih =>
    rw [List.range'_succ, List.map_cons]
    by_cases hn : results n = 0
    · obtain ⟨hrun, hobs⟩ := @round_leaves results supply n hn p
      rw [observe_loop_leave _ _ _ hrun, hobs, List.takeWhile_cons_of_neg (by simpa using hn)]
    · obtain ⟨hrun, hobs⟩ := @round_passes results supply n hn p
      rw [observe_loop_next _ _ _ hrun, hobs, List.takeWhile_cons_of_pos (by simpa using hn),
        fed, ih]
      rfl

/-- The loop is left at a zero only, and then with it. -/
theorem loop_leaves (fuel n : ℕ) (p : Pool) :
    (run (acceptHandler results supply) (loop acceptRound fuel ()) (n, p)).1 =
      if ∃ k < fuel, results (n + k) = 0 then some 0 else none := by
  induction fuel generalizing n p with
  | zero => simp [run_loop_zero]
  | succ fuel ih =>
    by_cases hn : results n = 0
    · rw [run_loop_leave _ _ (round_leaves hn p).1, if_pos ⟨0, Nat.zero_lt_succ fuel, hn⟩]
    · have hshift : (∃ k < fuel, results (n + 1 + k) = 0) ↔
          ∃ k < fuel + 1, results (n + k) = 0 := by
        constructor
        · rintro ⟨k, hk, hres⟩
          exact ⟨k + 1, by omega, by rwa [← Nat.add_assoc, Nat.add_right_comm]⟩
        · rintro ⟨k, hk, hres⟩
          cases k with
          | zero => exact absurd hres hn
          | succ k => exact ⟨k, by omega, by rwa [Nat.add_right_comm, Nat.add_assoc]⟩
      rw [run_loop_next _ _ (round_passes hn p).1, fed, ih]
      simp only [hshift]

/-- The test after the loop is reached with a zero only, and so never throws. -/
theorem start_ends (fuel : ℕ) (p : Pool) :
    (run (acceptHandler results supply) (start fuel) (0, p)).1 =
      if ∃ k < fuel, results k = 0 then some (.ok ()) else none := by
  have hloop := @loop_leaves results supply fuel 0 p
  simp only [Nat.zero_add] at hloop
  unfold start
  simp only [perform_bind, run_call, acceptHandler, run_bind]
  rw [hloop]
  split_ifs <;> rfl

theorem start_passes (fuel : ℕ) (p : Pool) :
    observe passed (acceptHandler results supply) (start fuel) (0, p) =
      ((List.range fuel).map results).takeWhile (· ≠ 0) := by
  have hrest : ∀ (r : Option ℤ) (w : World), observe passed (acceptHandler results supply)
      (match r with
        | none => return none
        | some clientSock =>
          return some (if clientSock < 0 then .error failureAccept else .ok ()) :
        StartM (Option (Except ℕ Unit))) w = [] := by
    intro r w
    cases r <;> rfl
  unfold start
  simp only [perform_bind]
  rw [observe_call_none _ _ rfl, observe_call_none _ _ rfl, observe_bind, hrest, List.append_nil,
    List.range_eq_range']
  exact loop_passes fuel 0 p

end Accept

/-- The server does what it should exactly when no call of `accept` fails and none returns the
descriptor 0: a negative result is passed to the pool, and a 0 ends the server without failure. -/
theorem accepts_right_iff (results : ℕ → ℤ) (supply : ℕ → Addr × ℤ) (p : Pool) :
    AcceptsRight results supply p ↔ ∀ k, 0 < results k := by
  constructor
  · intro hright k
    have hends := hright.ends (k + 1)
    rw [start_ends] at hends
    have hzero : ¬ ∃ j < k + 1, results j = 0 := by
      intro hex
      rw [if_pos hex] at hends
      split_ifs at hends
      all_goals simp at hends
    have hneg : ¬ ∃ j < k + 1, results j < 0 := by
      intro hex
      rw [if_neg hzero, if_pos hex] at hends
      simp at hends
    have hlt : k < k + 1 := Nat.lt_succ_self k
    rcases lt_trichotomy (results k) 0 with hk | hk | hk
    · exact absurd ⟨k, hlt, hk⟩ hneg
    · exact absurd ⟨k, hlt, hk⟩ hzero
    · exact hk
  · intro hpos
    have hzero : ∀ fuel, ¬ ∃ k < fuel, results k = 0 := fun fuel ⟨k, _, hk⟩ => (hpos k).ne' hk
    have hneg : ∀ fuel, ¬ ∃ k < fuel, results k < 0 := fun fuel ⟨k, _, hk⟩ => (hpos k).not_gt hk
    have htake : ∀ (l : List ℕ), (l.map results).takeWhile (· ≠ 0) =
        (l.map results).takeWhile (0 ≤ ·) := by
      intro l
      rw [List.takeWhile_eq_self_iff.mpr, List.takeWhile_eq_self_iff.mpr]
      · simpa using fun k _ => (hpos k).le
      · simpa using fun k _ => (hpos k).ne'
    constructor
    · intro fuel
      rw [start_passes, htake]
    · intro fuel
      rw [start_ends, if_neg (hzero fuel), if_neg (hneg fuel)]

def noThreads : Pool := Pool.init fun _ => ⟨0, 0, 0, fun _ => 0, none, none⟩

/-- A daemon has closed its standard input, so that its first connection gets the descriptor 0 and
ends the server; and when `accept` has no descriptor left, the pool is given -1 again and again. -/
theorem zero_and_negative_mistaken :
    (run (acceptHandler (fun n => n) fun n => (n, 0)) (start 1) (0, noThreads)).1 =
        some (.ok ()) ∧
      observe passed (acceptHandler (fun _ => -1) fun n => (n, 0)) (start 3) (0, noThreads) =
        [-1, -1, -1] ∧
      ¬ ∀ results supply p, AcceptsRight results supply p := by
  have hfailed : observe passed (acceptHandler (fun _ => -1) fun n => (n, 0)) (start 3)
      (0, noThreads) = [-1, -1, -1] := by
    rw [start_passes]
    decide
  refine ⟨?_, hfailed, ?_⟩
  · rw [start_ends, if_pos ⟨0, by decide, rfl⟩]
  · intro hall
    have hpasses := (hall (fun _ => -1) (fun n => (n, 0)) noThreads).passes 3
    rw [hfailed] at hpasses
    exact absurd hpasses (by decide)

end ServerStart
