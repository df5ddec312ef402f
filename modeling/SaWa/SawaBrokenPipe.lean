import SaWa.SawaFrameLoop

/-! Replies to a peer that has gone. A `write` to a connection that the peer has reset raises
`SIGPIPE`, whose default action ends the server; nothing sets another. Which of the replies on a
connection do so is up to the peer. -/
namespace SawaBrokenPipe

open EffectProgram RangeStore SawaProtocol SawaServer SawaServerRun SawaFrameLoop

/-- `broken k` says that the reply behind `k` others raises the signal. -/
def brokenPipe (broken : ℕ → Bool) : Call × World → Bool
  | (.write _, w) => broken w.2.output.length
  | _ => false

def written : Call × World → Option (List UInt8)
  | (.write bytes, _) => some bytes
  | _ => none

/-- What the run writes is what is written on the connection. -/
theorem output_run {α : Type} (p : ServerM α) (w : World) :
    (run sysHandler p w).2.2.output = w.2.output ++ observe written sysHandler p w := by
  induction p generalizing w with
  | ret => exact (List.append_nil _).symm
  | call e k ih =>
    cases e with
    | write bytes =>
      rw [run_call, ih, observe_call_some sysHandler written rfl]
      exact List.append_assoc _ [bytes] _
    | _ =>
      rw [run_call, ih, observe_call_none sysHandler written rfl]
      rfl

/-- The run meets no broken pipe when none of its replies does, counted from those before. -/
theorem unbroken_iff {α : Type} (broken : ℕ → Bool) (p : ServerM α) (w : World) :
    AllCalls sysHandler (fun c => brokenPipe broken c = false) p w ↔
      ∀ k < (observe written sysHandler p w).length, broken (w.2.output.length + k) = false := by
  induction p generalizing w with
  | ret a => exact iff_of_true (allCalls_ret _ a w) (fun k hk => absurd hk (Nat.not_lt_zero k))
  | call e k ih =>
    rw [allCalls_call, ih]
    cases e with
    | write bytes =>
      have hlen : (sysHandler (.write bytes) w).2.2.output.length = w.2.output.length + 1 := by
        show (w.2.output ++ [bytes]).length = _
        rw [List.length_append, List.length_singleton]
      rw [observe_call_some sysHandler written rfl, List.length_cons, hlen]
      constructor
      · rintro ⟨hfirst, hrest⟩ j hj
        cases j with
        | zero => exact hfirst
        | succ j =>
          rw [← Nat.add_assoc, Nat.add_right_comm]
          exact hrest j (by omega)
      · intro hall
        refine ⟨hall 0 (Nat.succ_pos _), fun j hj => ?_⟩
        rw [Nat.add_right_comm, Nat.add_assoc]
        exact hall (j + 1) (by omega)
    | _ =>
      rw [observe_call_none sysHandler written rfl]
      exact and_iff_right rfl

/-! ### The replies of a frame loop -/

/-- The frames that are answered, each by one `write`. -/
structure Replies (L : FrameLoop) (answered : List UInt8 → Bool) : Prop where
  size_pos : ∀ n, L.positive n = true → 0 < n.toNat
  output : ∀ addr size w, 0 < size.toNat → (L.effect addr size w).2.output.length =
    w.2.output.length + if answered (load addr 0 size.toNat) then 1 else 0

section Replies
variable {L : FrameLoop} {answered : List UInt8 → Bool}

theorem length_written_process (hL : Replies L answered) (addr : Mem) {size : UInt32} (w : World)
    (hs : 0 < size.toNat) : (observe written sysHandler (L.process addr size) w).length =
      (observe executed sysHandler (L.process addr size) w).countP answered := by
  have hout := congrArg List.length (output_run (L.process addr size) w)
  rw [L.run_process addr size w hs, List.length_append, hL.output addr size w hs] at hout
  rw [L.executed_process, List.countP_singleton]
  exact (Nat.add_left_cancel hout).symm

theorem length_written_round (hL : Replies L answered) (w : World) :
    (observe written sysHandler (L.round ()) w).length =
      (observe executed sysHandler (L.round ()) w).countP answered := by
  rw [FrameLoop.round, executed_frameRound,
    observe_frameRound _ _ _ written (fun _ _ => rfl) (fun _ _ => rfl)]
  split_ifs with hshort hlong hpos
  · rfl
  · rfl
  · exact length_written_process hL _ _ (hL.size_pos _ hpos)
  · rfl

/-- Each of the executed frames that is answered is answered once, and nothing else is written. -/
theorem length_written (hL : Replies L answered) (n : ℕ) (w : World) :
    (observe written sysHandler (L.program n) w).length =
      (observe executed sysHandler (L.program n) w).countP answered := by
  induction n generalizing w with
  | zero => rfl
  | succ n ih =>
    have hround := length_written_round hL w
    rcases hr : run sysHandler (L.round ()) w with ⟨c | b, w'⟩
    · have hnext := ih w'
      unfold FrameLoop.program at hnext ⊢
      rw [observe_loop_next _ _ _ hr, observe_loop_next _ _ _ hr, List.length_append,
        List.countP_append, hround, hnext]
    · unfold FrameLoop.program
      rw [observe_loop_leave _ _ _ hr, observe_loop_leave _ _ _ hr, hround]

end Replies

theorem head_load (addr : Mem) {n : ℕ} (hn : 0 < n) : (load addr 0 n).head? = some (addr 0) := by
  obtain ⟨k, rfl⟩ : ∃ k, n = 1 + k := ⟨n - 1, by omega⟩
  rw [load_add, load_one]
  rfl

/-- The commands of `processRequest`. -/
def isCommand (f : List UInt8) : Bool :=
  f.head? = some sawaInfo ∨ f.head? = some sawaRead ∨ f.head? = some sawaWrite

theorem length_readFileEffect (offset size : UInt32) (w : World) :
    (readFileEffect offset size w).2.output.length = w.2.output.length + 1 := by
  unfold readFileEffect
  split_ifs <;> exact List.length_append

theorem length_writeFileEffect (offset size : UInt32) (bytes : List UInt8) (w : World) :
    (writeFileEffect offset size bytes w).2.output.length = w.2.output.length + 1 := by
  unfold writeFileEffect
  split_ifs <;> exact List.length_append

theorem isCommand_load (addr : Mem) {n : ℕ} (hn : 0 < n) : isCommand (load addr 0 n) =
    decide (addr 0 = sawaInfo ∨ addr 0 = sawaRead ∨ addr 0 = sawaWrite) := by
  rw [isCommand, head_load addr hn]
  simp only [Option.some.injEq]

theorem output_counted (idx : Fin 3) (w : World) : (counted idx w).2.output = w.2.output := rfl

theorem length_processEffect (addr : Mem) (size : UInt32) (w : World) :
    (processEffect addr size w).2.output.length = w.2.output.length +
      if addr 0 = sawaInfo ∨ addr 0 = sawaRead ∨ addr 0 = sawaWrite then 1 else 0 := by
  unfold processEffect
  by_cases hi : addr 0 = sawaInfo
  · rw [if_pos hi, if_pos (Or.inl hi)]
    exact List.length_append
  by_cases hr : addr 0 = sawaRead
  · rw [if_neg hi, if_pos hr, if_pos (Or.inr (Or.inl hr)), output_counted, length_readFileEffect]
  by_cases hw : addr 0 = sawaWrite
  · rw [if_neg hi, if_neg hr, if_pos hw, if_pos (Or.inr (Or.inr hw)), output_counted,
      length_writeFileEffect]
  · rw [if_neg hi, if_neg hr, if_neg hw, if_neg (by simp [hi, hr, hw])]
    rfl

theorem serverLoop_replies : Replies serverLoop isCommand where
  size_pos n h := UInt32.lt_iff_toNat_lt.mp (of_decide_eq_true h)
  output addr size w hs := by
    simp only [isCommand_load addr hs, decide_eq_true_eq]
    exact length_processEffect addr size w

/-- The one command of `processCommand` that is answered. -/
def isStat (f : List UInt8) : Bool := f.head? = some sawaStat

theorem length_commandEffect (addr : Mem) (size : UInt32) (w : World) :
    (commandEffect addr size w).2.output.length =
      w.2.output.length + if addr 0 = sawaStat then 1 else 0 := by
  unfold commandEffect
  split_ifs
  · exact List.length_append
  · rfl

theorem adminLoop_replies : Replies adminLoop isStat where
  size_pos n h := by
    have hs : 0 < signed n := of_decide_eq_true h
    rw [Nat.pos_iff_ne_zero]
    intro hz
    rw [show n = 0 from UInt32.toNat_inj.mp hz] at hs
    exact absurd hs (by decide)
  output addr size w hs := by
    simp only [isStat, head_load addr hs, Option.some.injEq, decide_eq_true_eq]
    exact length_commandEffect addr size w

end SawaBrokenPipe
