import SaWa.RankedRuns
import SaWa.ThreadPoolHandoff

/-! What the thread pool comes to when no more connections arrive and `readData` returns on those
there are. -/
namespace ThreadPoolDrain

open ThreadPool ThreadPoolHandoff RankedRuns Pool

/-- A step other than the acceptance of a connection. -/
def Quiet (s t : State) : Prop := Step s t ∧ t.accepted = s.accepted

/-- Every connection accepted was served to its end, once, and closed, and every thread waits on the
idle list. -/
structure Drained (s : State) : Prop where
  listening : s.accept = .listening
  finished : s.finished.Perm (List.range s.accepted)
  closed : ∀ sock, s.descriptor sock = none
  idle : ∀ a ∈ s.threads, s.worker a = .waiting ∧ a ∈ s.idle
  sock : ∀ a ∈ s.threads, s.pool.sock a = -1

/-! ### What is open and what is finished -/

/-- The thread has been released and not been given a connection since. -/
@[grind] def Released (s : State) (a : Addr) : Prop :=
  s.worker a = .pushing ∨ (s.worker a = .waiting ∧ s.accept ≠ .signalling a ∧ s.pending a = false)

structure Settled (s : State) : Prop where
  opened : ∀ sock c, s.descriptor sock = some c →
    s.accept.inHand = some sock ∨ ∃ a, Held s a ∧ s.pool.sock a = sock
  nodup : s.finished.Nodup
  finished_lt : ∀ c ∈ s.finished, c < s.accepted
  in_hand : ∀ sock, s.accept.inHand = some sock → s.current ∉ s.finished
  unfinished : ∀ a c, s.assigned a = some c → Due s a ∨ (s.worker a).isServing → c ∉ s.finished
  released : ∀ a, Released s a → s.pool.sock a = -1

theorem settled_initial (heap : Addr → ConnectionThread) : Settled (initial heap) := by
  constructor <;> simp [initial, AcceptPc.inHand, Released]

section SettledStep
variable {s t : State}

theorem opened_step (h : Step s t) (hi : Invariant s) (hs : Settled s) :
    ∀ sock c, t.descriptor sock = some c →
      t.accept.inHand = some sock ∨ ∃ a, Held t a ∧ t.pool.sock a = sock := by
  have hopened := hs.opened
  have hc := hi.control
  simp only [Held] at hopened ⊢
  cases h with
  | pop sock a p hpc hpop =>
    have hsock := sock_popIdle hpop
    grind
  | store sock a hpc =>
    have hstoring := hc.storing sock a hpc
    grind [sock_assign]
  | create sock a hpc hnew =>
    have habsent := hc.absent a
    have hpending := hc.pending_waiting a
    grind [sock_linkNew]
  | close a hpc => grind
  | clear a hpc =>
    have hpending := hc.pending_waiting a
    have hsignalling := hc.signalling a
    have habsent := hc.absent a
    intro sock c hopen
    rcases hopened sock c hopen with hhand | ⟨b, hheld, hsock⟩
    · exact Or.inl hhand
    · have hba : b ≠ a := by grind
      refine Or.inr ⟨b, ?_, (sock_clearSock _ a b).trans ((if_neg hba).trans hsock)⟩
      simpa only [Function.update_of_ne hba] using hheld
  | push => grind [sock_pushIdle]
  | _ => grind

/-- The connection that a worker is serving, and its place in the history. -/
theorem finishing {a : Addr} {sock : ℤ} (hpc : s.worker a = .serving sock) (hi : Invariant s)
    (hs : Settled s) : ∃ c, s.assigned a = some c ∧ s.descriptor sock = some c ∧
      c ∉ s.finished := by
  obtain ⟨c, hassigned, hdesc, -⟩ := hi.ownership.owns a (by simp [Held, hpc, WorkerPc.busy])
  rw [← hi.ownership.serving a sock hpc] at hdesc
  exact ⟨c, hassigned, hdesc, hs.unfinished a c hassigned (Or.inr (by rw [hpc]; trivial))⟩

theorem finished_nodup_step (h : Step s t) (hi : Invariant s) (hs : Settled s) :
    t.finished.Nodup := by
  cases h with
  | finish a sock hpc =>
    obtain ⟨c, -, hdesc, hnew⟩ := finishing hpc hi hs
    rw [hdesc]
    exact List.nodup_cons.mpr ⟨hnew, hs.nodup⟩
  | _ => exact hs.nodup

theorem finished_lt_step (h : Step s t) (hi : Invariant s) (hs : Settled s) :
    ∀ c ∈ t.finished, c < t.accepted := by
  have hlt := hs.finished_lt
  have hdlt := hi.ownership.descriptor_lt
  cases h <;> grind

theorem in_hand_step (h : Step s t) (hi : Invariant s) (hs : Settled s) :
    ∀ sock, t.accept.inHand = some sock → t.current ∉ t.finished := by
  have hhand := hs.in_hand
  have hlt := hs.finished_lt
  cases h with
  | finish a sock hpc =>
    obtain ⟨c, hassigned, hdesc, -⟩ := finishing hpc hi hs
    have hunassigned := hi.ownership.unassigned
    grind
  | signal => nofun
  | spawn => nofun
  | _ => grind

theorem unfinished_step (h : Step s t) (hi : Invariant s) (hs : Settled s) :
    ∀ a c, t.assigned a = some c → Due t a ∨ (t.worker a).isServing → c ∉ t.finished := by
  have hunfinished := hs.unfinished
  have hhand := hs.in_hand
  simp only [Due] at hunfinished ⊢
  cases h with
  | store sock a hpc =>
    have hcurrent := hhand sock (by rw [hpc]; rfl)
    grind
  | create sock a hpc hnew =>
    have hcurrent := hhand sock (by rw [hpc]; rfl)
    grind
  | finish a sock hpc =>
    obtain ⟨c, hassigned, hdesc, -⟩ := finishing hpc hi hs
    have hinj := hi.ownership.assigned_inj
    have hpending := hi.control.pending_waiting a
    have hsignalling := hi.control.signalling a
    have habsent := hi.control.absent a
    grind
  | _ => grind

theorem released_step (h : Step s t) (hi : Invariant s) (hs : Settled s) :
    ∀ a, Released t a → t.pool.sock a = -1 := by
  have hreleased := hs.released
  have hc := hi.control
  simp only [Released] at hreleased ⊢
  cases h with
  | pop sock a p hpc hpop =>
    have hsock := sock_popIdle hpop
    grind
  | store sock a hpc =>
    have hstoring := hc.storing sock a hpc
    grind [sock_assign]
  | create sock a hpc hnew =>
    have habsent := hc.absent a
    grind [sock_linkNew]
  | clear => grind [sock_clearSock]
  | push => grind [sock_pushIdle]
  | wake => grind
  | _ => grind

theorem settled_step (h : Step s t) (hi : Invariant s) (hs : Settled s) : Settled t where
  opened := opened_step h hi hs
  nodup := finished_nodup_step h hi hs
  finished_lt := finished_lt_step h hi hs
  in_hand := in_hand_step h hi hs
  unfinished := unfinished_step h hi hs
  released := released_step h hi hs

end SettledStep

theorem reachable_settled {s : State} (r : Reachable s) : Settled s := by
  induction r with
  | init heap => exact settled_initial heap
  | step r h ih => exact settled_step h (reachable_invariant r) ih

/-! ### What is left to do -/

/-- The steps the accept thread and the worker it ends up with have left for a connection. -/
def acceptWork : AcceptPc → ℕ
  | .listening => 0
  | .testing _ => 10
  | .popping _ => 9
  | .storing _ _ => 8
  | .signalling _ => 7
  | .creating _ => 7
  | .spawning _ => 6

def workerWork : WorkerPc → ℕ
  | .starting => 5
  | .serving _ => 4
  | .closing => 3
  | .clearing => 2
  | .pushing => 1
  | .absent | .waiting => 0

def threadWork (worker : Addr → WorkerPc) (pending : Addr → Bool) (a : Addr) : ℕ :=
  workerWork (worker a) + if pending a then 6 else 0

def work (s : State) : ℕ := acceptWork s.accept + total (threadWork s.worker s.pending) s.threads

section Work
variable {s t : State} {a : Addr}

theorem mem_threads (hc : Control s) (h : s.worker a ≠ .absent) : a ∈ s.threads := by
  by_contra hnot
  exact h ((hc.absent a).mpr (Or.inl hnot))

/-- A worker that goes on has less left to do. -/
theorem total_worker_lt (hc : Control s) {pc : WorkerPc} (h : s.worker a ≠ .absent)
    (hlt : workerWork pc < workerWork (s.worker a)) :
    total (threadWork (Function.update s.worker a pc) s.pending) s.threads <
      total (threadWork s.worker s.pending) s.threads := by
  apply total_lt _ (mem_threads hc h)
  · simp only [threadWork, Function.update_self]
    exact Nat.add_lt_add_right hlt _
  · intro b _
    by_cases hba : b = a
    · subst hba
      simp only [threadWork, Function.update_self]
      exact Nat.add_le_add_right hlt.le _
    · simp only [threadWork, Function.update_of_ne hba, le_refl]

theorem total_wake_lt (hc : Control s) (hpc : s.worker a = .waiting) (h : s.pending a = true) :
    total (threadWork (Function.update s.worker a .starting) (Function.update s.pending a false))
      s.threads < total (threadWork s.worker s.pending) s.threads := by
  have ha : threadWork (Function.update s.worker a .starting)
      (Function.update s.pending a false) a < threadWork s.worker s.pending a := by
    simp [threadWork, workerWork, hpc, h]
  apply total_lt _ (mem_threads hc (by rw [hpc]; nofun)) ha
  intro b _
  by_cases hba : b = a
  · subst hba
    exact ha.le
  · simp only [threadWork, Function.update_of_ne hba, le_refl]

theorem total_signal_le (hc : Control s) (a : Addr) :
    total (threadWork s.worker (Function.update s.pending a true)) s.threads ≤
      total (threadWork s.worker s.pending) s.threads + 6 := by
  apply total_le_add a hc.lists.all_chain.nodup
  · intro b hba
    simp only [threadWork, Function.update_of_ne hba, le_refl]
  · simp only [threadWork, Function.update_self, if_true]
    omega

theorem total_spawn_le (hc : Control s) (hpc : s.accept = .spawning a) :
    total (threadWork (Function.update s.worker a .starting) s.pending) s.threads ≤
      total (threadWork s.worker s.pending) s.threads + 5 := by
  apply total_le_add a hc.lists.all_chain.nodup
  · intro b hba
    simp only [threadWork, Function.update_of_ne hba, le_refl]
  · have habsent : s.worker a = .absent := (hc.absent a).mpr (Or.inr hpc)
    simp only [threadWork, Function.update_self, habsent, workerWork]
    omega

/-- A connection brings ten steps, and every other step takes one away. -/
theorem work_step (h : Step s t) (hc : Control s) :
    (t.accepted = s.accepted + 1 ∧ work t = work s + 10) ∨
      (t.accepted = s.accepted ∧ work t < work s) := by
  cases h with
  | accept sock hpc =>
    left
    simp only [work, hpc, acceptWork]
    exact ⟨trivial, by omega⟩
  | testEmpty sock hpc =>
    right
    simp only [work, hpc, acceptWork]
    exact ⟨trivial, by omega⟩
  | testIdle sock hpc =>
    right
    simp only [work, hpc, acceptWork]
    exact ⟨trivial, by omega⟩
  | pop sock a p hpc =>
    right
    simp only [work, hpc, acceptWork]
    exact ⟨trivial, by omega⟩
  | store sock a hpc =>
    right
    simp only [work, hpc, acceptWork]
    exact ⟨trivial, by omega⟩
  | signal a hpc =>
    have hle := total_signal_le hc a
    right
    simp only [work, hpc, acceptWork]
    exact ⟨trivial, by omega⟩
  | create sock a hpc hnew =>
    -- The new thread has nothing to do before it is spawned.
    have habsent : s.worker a = .absent := (hc.absent a).mpr (Or.inl hnew)
    have hpending : s.pending a = false := by
      have hwaiting := hc.pending_waiting a
      grind
    right
    simp only [work, hpc, acceptWork, total, threadWork, habsent, hpending, workerWork]
    exact ⟨trivial, by simp⟩
  | spawn a hpc =>
    have hle := total_spawn_le hc hpc
    right
    simp only [work, hpc, acceptWork]
    exact ⟨trivial, by omega⟩
  | wake a hpc hpending =>
    have hlt := total_wake_lt hc hpc hpending
    exact Or.inr ⟨rfl, Nat.add_lt_add_left hlt _⟩
  | start a hpc | finish a sock hpc | close a hpc | clear a hpc | push a hpc =>
    exact Or.inr ⟨rfl, Nat.add_lt_add_left (total_worker_lt hc (by simp [hpc])
      (by simp [hpc, workerWork])) _⟩

theorem work_le (r : Reachable s) : work s ≤ 10 * s.accepted := by
  induction r with
  | init heap => exact Nat.zero_le _
  | step r h ih =>
    have hstep := work_step h (reachable_invariant r).control
    omega

end Work

/-! ### Where nothing is left to do -/

section Final
variable {s : State} {a : Addr}

/-- There is always memory for a new thread. -/
theorem exists_above (l : List Addr) : ∃ a, ∀ b ∈ l, b < a := by
  induction l with
  | nil => exact ⟨0, nofun⟩
  | cons b l ih =>
    obtain ⟨a, ha⟩ := ih
    refine ⟨a + (b + 1), List.forall_mem_cons.mpr ⟨Nat.le_add_left _ a, fun c hc => ?_⟩⟩
    exact Nat.lt_of_lt_of_le (ha c hc) (Nat.le_add_right a _)

theorem final_listening (r : Reachable s) (h : Final Quiet s) : s.accept = .listening := by
  cases hpc : s.accept with
  | listening => rfl
  | testing sock =>
    by_cases hidle : s.pool.idleThreads = none
    · exact absurd ⟨.testEmpty s sock hpc hidle, rfl⟩ (h _)
    · exact absurd ⟨.testIdle s sock hpc hidle, rfl⟩ (h _)
  | popping sock =>
    obtain ⟨a, p, hpop⟩ := pop_ready r hpc
    exact absurd ⟨.pop s sock a p hpc hpop, rfl⟩ (h _)
  | storing sock a => exact absurd ⟨.store s sock a hpc, rfl⟩ (h _)
  | signalling a => exact absurd ⟨.signal s a hpc, rfl⟩ (h _)
  | creating sock =>
    obtain ⟨a, ha⟩ := exists_above s.threads
    have hnew : a ∉ s.threads := fun hmem => absurd (ha a hmem) (Nat.lt_irrefl a)
    exact absurd ⟨.create s sock a hpc hnew, rfl⟩ (h _)
  | spawning a => exact absurd ⟨.spawn s a hpc, rfl⟩ (h _)

theorem final_worker (h : Final Quiet s) :
    s.worker a = .absent ∨ s.worker a = .waiting ∧ s.pending a = false := by
  cases hpc : s.worker a with
  | absent => exact Or.inl rfl
  | starting => exact absurd ⟨.start s a hpc, rfl⟩ (h _)
  | serving sock => exact absurd ⟨.finish s a sock hpc, rfl⟩ (h _)
  | closing => exact absurd ⟨.close s a hpc, rfl⟩ (h _)
  | clearing => exact absurd ⟨.clear s a hpc, rfl⟩ (h _)
  | pushing => exact absurd ⟨.push s a hpc, rfl⟩ (h _)
  | waiting =>
    cases hpending : s.pending a with
    | false => exact Or.inr ⟨rfl, rfl⟩
    | true => exact absurd ⟨.wake s a hpc hpending, rfl⟩ (h _)

theorem final_not_held (r : Reachable s) (h : Final Quiet s) :
    ¬ Held s a ∧ ¬ Due s a ∧ ¬ (s.worker a).isServing := by
  have hlistening := final_listening r h
  have hworker := @final_worker s a h
  have hpending := (reachable_invariant r).control.pending_waiting a
  simp only [Held, Due]
  grind

theorem final_drained (r : Reachable s) (h : Final Quiet s) : Drained s := by
  have hlistening := final_listening r h
  have hi := reachable_invariant r
  have hs := reachable_settled r
  have hfree := fun a => @final_not_held s a r h
  have hwaiting : ∀ a ∈ s.threads, s.worker a = .waiting ∧ s.pending a = false := by
    intro a ha
    have habsent := hi.control.absent a
    have hworker := @final_worker s a h
    grind
  refine ⟨hlistening, ?_, ?_, ?_, ?_⟩
  · apply (List.perm_ext_iff_of_nodup hs.nodup List.nodup_range).mpr
    intro c
    rw [List.mem_range]
    refine ⟨hs.finished_lt c, fun hc => ?_⟩
    rcases hi.placed c hc with hfin | ⟨hhand, -⟩ | ⟨a, -, hdue | hserving⟩
    · exact hfin
    · rw [hlistening] at hhand
      cases hhand
    · exact absurd hdue (hfree a).2.1
    · exact absurd hserving (hfree a).2.2
  · intro sock
    cases hopen : s.descriptor sock with
    | none => rfl
    | some c =>
      rcases hs.opened sock c hopen with hhand | ⟨a, hheld, -⟩
      · rw [hlistening] at hhand
        cases hhand
      · exact absurd hheld (hfree a).1
  · intro a ha
    obtain ⟨hpc, hpending⟩ := hwaiting a ha
    have hplace := hi.control.waiting a hpc
    rw [hlistening, hpending] at hplace
    exact ⟨hpc, (hplace.resolve_right (by simp [AcceptPc.holds]))⟩
  · intro a ha
    obtain ⟨hpc, hpending⟩ := hwaiting a ha
    exact hs.released a (Or.inr ⟨hpc, by rw [hlistening]; nofun, hpending⟩)

end Final

/-! ### The pool drains -/

theorem reachable_quiet (s t : State) (r : Reachable s) (h : Quiet s t) : Reachable t := r.step h.1

theorem work_quiet (s t : State) (r : Reachable s) (h : Quiet s t) : work t < work s := by
  rcases work_step h.1 (reachable_invariant r).control with ⟨hmore, -⟩ | ⟨-, hlt⟩
  · have hsame := h.2
    omega
  · exact hlt

/-- However the threads take turns, the pool is done after ten steps for each connection at most,
and is never stuck before. -/
theorem pool_drains {s : State} (r : Reachable s) :
    (∀ n t, Steps Quiet s n t → n ≤ 10 * s.accepted) ∧
      (∀ n t, Steps Quiet s n t → Final Quiet t → Drained t) ∧
      ∃ n t, Steps Quiet s n t ∧ Final Quiet t := by
  refine ⟨?_, ?_, exists_final reachable_quiet work_quiet r⟩
  · intro n t h
    have hle := h.le_rank reachable_quiet work_quiet r
    have hwork := work_le r
    omega
  · intro n t h hend
    exact final_drained (h.keeps reachable_quiet r) hend

/-- A connection is being served and a second one has just been accepted. -/
theorem two_connections_drain :
    ∃ s, s.accepted = 2 ∧ s.finished = [] ∧ (∀ n t, Steps Quiet s n t → n ≤ 20) ∧
      ∃ n t, Steps Quiet s n t ∧ Drained t := by
  have r := Reachable.init fun _ => ⟨0, 0, 0, fun _ => 0, none, none⟩
  replace r := r.step (.accept _ 5 rfl (by decide) rfl)
  replace r := r.step (.testEmpty _ 5 rfl rfl)
  replace r := r.step (.create _ 5 0 rfl (by simp [initial]))
  replace r := r.step (.spawn _ 0 rfl)
  replace r := r.step (.start _ 0 rfl)
  replace r := r.step (.accept _ 6 rfl (by decide) rfl)
  obtain ⟨hbound, hdrained, n, t, hrun, hend⟩ := pool_drains r
  exact ⟨_, rfl, rfl, hbound, n, t, hrun, hdrained n t hrun hend⟩

end ThreadPoolDrain
