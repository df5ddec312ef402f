import SaWa.PooledDrain
import SaWa.SawaLinearizable

/-! The storage server on its pool comes to rest when its clients have sent what they send. The
bytes of a client bound the calls that are made for it, whatever they are and however the reads cut
them. -/
namespace SawaServerDrain

open EffectProgram InterleavedPrograms RankedRuns RangeStore LittleEndian SawaProtocol SawaServer
  SawaServerRun Linearizability ServingThreads ThreadPoolHandoff ThreadPoolDrain PooledServer
  PooledDrain SawaLinearizable
open SawaSharedStream (readFile_accepted writeFile_accepted)

/-- A frame has at least the four bytes of its length, and is served with ten calls. -/
def callsFor (c : Conn) : ℕ := 10 * (c.input.length / 4 + 1)

/-! ### The calls of a request -/

/-- The program makes at most `n` calls, and none of them reads from the socket. -/
def Spends {α : Type} (n : ℕ) (p : ServerM α) : Prop :=
  ∀ c, Ends sysHandler (fun _ c' => c'.input = c.input) n p c

section Spends
variable {α β : Type} {n m : ℕ} {offset size : UInt32}

theorem spends_ret (n : ℕ) (a : α) : Spends n (.ret a : ServerM α) := fun _ => ends_ret n rfl

theorem spends_call {e : Call} {k : Answer e → ServerM α}
    (he : ∀ s c, (sysHandler e (s, c)).2.2.input = c.input) (hk : ∀ r, Spends n (k r)) :
    Spends (n + 1) (.call e k) := by
  intro c s
  refine (hk _ _).mono le_rfl fun _ c' hc' => ?_
  exact hc'.trans (he s c)

theorem spends_bind {p : ServerM α} {f : α → ServerM β} (hp : Spends n p)
    (hf : ∀ a, Spends m (f a)) : Spends (n + m) (p >>= f) := by
  intro c
  refine ends_bind (hp c) fun a c' hc' => ?_
  exact (hf a c').mono le_rfl fun _ c'' hc'' => hc''.trans hc'

theorem Spends.mono {p : ServerM α} (hp : Spends n p) (h : n ≤ m) : Spends m p :=
  fun c => (hp c).mono h fun _ _ hc => hc

theorem spends_sendInfo : Spends 2 sendInfo :=
  spends_call (fun _ _ => rfl) fun _ => spends_call (fun _ _ => rfl) fun _ => spends_ret 0 ()

theorem spends_refused {offset size : UInt32} (h : ¬ Accepted offset size) (rest : ServerM Unit) :
    Spends 1 (checkValidRequest offset size >>= fun ok => if ok then rest else .ret ()) := by
  rw [checkValidRequest_refused h]
  exact spends_call (fun _ _ => rfl) fun _ => spends_ret 0 ()

theorem spends_readFile : Spends 5 (readFile offset size) := by
  by_cases h : Accepted offset size
  · rw [readFile_accepted h]
    refine spends_call (fun _ _ => rfl) fun _ => spends_call (fun _ _ => rfl) fun _ => ?_
    refine spends_call (fun _ _ => rfl) fun _ => spends_call (fun _ _ => rfl) fun _ => ?_
    exact spends_call (fun _ _ => rfl) fun _ => spends_ret 0 ()
  · rw [readFile, perform_bind]
    exact spends_call (fun _ _ => rfl) fun _ => (spends_refused h _).mono (by omega)

theorem spends_writeFile (addr : Mem) : Spends 5 (writeFile addr offset size) := by
  by_cases h : Accepted offset size
  · rw [writeFile_accepted h]
    refine spends_call (fun _ _ => rfl) fun _ => spends_call (fun _ _ => rfl) fun seek => ?_
    split_ifs
    · refine spends_call (fun _ _ => rfl) fun _ => spends_call (fun _ _ => rfl) fun _ => ?_
      exact spends_call (fun _ _ => rfl) fun _ => spends_ret 0 ()
    · exact spends_call (fun _ _ => rfl) fun _ => spends_ret 2 ()
  · rw [writeFile, perform_bind]
    exact spends_call (fun _ _ => rfl) fun _ => (spends_refused h _).mono (by omega)

theorem spends_updateScreen (idx : Fin 3) : Spends 1 (updateScreen idx) :=
  spends_call (fun _ _ => rfl) fun _ => spends_ret 0 ()

theorem spends_processRequest (addr : Mem) : Spends 7 (processRequest addr size) := by
  rw [processRequest, perform_bind]
  refine spends_call (fun _ _ => rfl) fun _ => ?_
  dsimp only
  split_ifs
  · exact (spends_bind spends_sendInfo fun _ => spends_updateScreen infoCol).mono (by omega)
  · exact spends_bind spends_readFile fun _ => spends_updateScreen readCol
  · exact spends_bind (spends_writeFile _) fun _ => spends_updateScreen writeCol
  · exact spends_ret 6 ()

end Spends

/-! ### The calls of a connection -/

section Rounds
variable {rounds : ℕ} {c : Conn}

/-- A round that goes on has read the four bytes of a length. -/
def AfterRound (c : Conn) : Unit ⊕ Leave → Conn → Prop
  | .inl _, c' => c'.input.length + 4 ≤ c.input.length
  | .inr b, _ => b = .returned

theorem length_readBytes_le (c : Conn) (n : ℕ) : (c.readBytes n).length ≤ c.input.length := by
  simp only [Conn.readBytes, List.length_take]
  omega

theorem length_afterRead (c : Conn) (n : ℕ) :
    (c.afterRead n).input.length = c.input.length - (c.readBytes n).length := by
  simp only [Conn.afterRead, List.length_drop]

theorem ends_readDataRound : Ends sysHandler (AfterRound c) 10 (readDataRound ()) c := by
  have hless : ¬ (c.readBytes 4).length < 4 →
      (c.afterRead 4).input.length + 4 ≤ c.input.length := by
    intro hfull
    have hin := length_readBytes_le c 4
    rw [length_afterRead]
    omega
  rw [readDataRound, frameRound, perform_bind]
  refine ends_call fun _ => ?_
  simp only [sysHandler]
  split_ifs with hshort
  · exact ends_ret 9 rfl
  · exact ends_ret 9 rfl
  · rw [perform_bind]
    refine ends_call fun _ => ?_
    rw [perform_bind]
    refine ends_call fun _ => ?_
    simp only [sysHandler]
    -- The request itself reads no more, so it leaves no more than the two reads have left.
    refine ends_bind (m := 0) (spends_processRequest _ _) fun _ c' hc' => ends_ret 0 ?_
    have hleft := length_afterRead (c.afterRead 4) (wordOf (c.readBytes 4)).toNat
    have hfour := hless hshort
    have hrest : c'.input.length + 4 ≤ c.input.length := by
      rw [hc', hleft]
      omega
    exact hrest
  · exact ends_ret 9 (hless hshort)

/-- `readData` returns by itself after the calls that the bytes allow. -/
theorem ends_readData (h : c.input.length / 4 < rounds) :
    Ends sysHandler (fun a _ => a = some .returned) (callsFor c) (readData rounds) c := by
  induction rounds generalizing c with
  | zero => omega
  | succ n ih =>
    have hcalls : callsFor c = 10 + 10 * (c.input.length / 4) := by
      unfold callsFor
      omega
    rw [hcalls]
    refine ends_bind ends_readDataRound fun a c' ha => ?_
    cases a with
    | inl _ =>
      have hless : c'.input.length + 4 ≤ c.input.length := ha
      have hrest := ih (c := c') (by omega)
      apply hrest.mono _ fun _ _ h => h
      unfold callsFor
      omega
    | inr b =>
      have hb : b = .returned := ha
      exact ends_ret _ (congrArg some hb)

end Rounds

/-! ### The server at rest -/

/-- A step of the server other than the acceptance of a connection. -/
abbrev ServerGoes (rounds : ℕ) : ServerPool → ServerPool → Prop :=
  Goes (observing seekerHandler event inPlace) (readData rounds)

/-- Every connection was served to its end and closed, and as long as every transfer was in place
every request of theirs has been answered. -/
structure AtRest (s : ServerPool) : Prop where
  drained : Drained s.pool
  answered : s.shared.undisturbed = true → ∀ c < s.pool.accepted,
    (answers c s.shared.history).length = (asks c s.shared.history).length

theorem ends_observed {rounds : ℕ} {conns : ℕ → Conn} {c : ℕ}
    (h : (conns c).input.length / 4 < rounds) :
    Ends (observing seekerHandler event inPlace) (fun a _ => a = some .returned)
      (callsFor (conns c)) (readData rounds) (incoming conns c) := by
  have hanswer : ∀ e (s : Observed ℕ Shared Request (List UInt8)) (w : ℕ × Seeker),
      (observing seekerHandler event inPlace e (s, w)).1 =
        (sysHandler e (s.state, w.2.conn)).1 := fun _ _ _ => rfl
  have hhere : ∀ e (s : Observed ℕ Shared Request (List UInt8)) (w : ℕ × Seeker),
      (observing seekerHandler event inPlace e (s, w)).2.2.2.conn =
        (sysHandler e (s.state, w.2.conn)).2.2 := by
    intro e s w
    cases e <;> rfl
  have hconn : Ends sysHandler (fun a _ => a = some .returned) (callsFor (conns c))
      (readData rounds) (incoming conns c).2.conn := ends_readData h
  exact Ends.lift (fun s : Observed ℕ Shared Request (List UInt8) => s.state)
    (fun w : ℕ × Seeker => w.2.conn) hanswer hhere hconn

end SawaServerDrain
