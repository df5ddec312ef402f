import SaWa.ThreadPool
import Mathlib.Data.List.Basic

/-! The hand-off of connections between the accept thread and the workers, one atomic step at a
time. Descriptors are reused by the system once closed, so connections are numbered in the order
they are accepted; these numbers, the two lists and the records of what was served are history,
read by no step of the program. SIGUSR1 is blocked, and at most one is pending for a thread. -/
namespace ThreadPoolHandoff

open PointerChain ThreadPool Pool

/-- Where the accept thread is in `handleNewConnection`. -/
inductive AcceptPc where
  | listening
  | testing (sock : ℤ)
  | popping (sock : ℤ)
  | storing (sock : ℤ) (a : Addr)
  | signalling (a : Addr)
  | creating (sock : ℤ)
  | spawning (a : Addr)
  deriving DecidableEq, Repr

/-- Where a thread is in `connection_handler`; `absent` before it is created. -/
inductive WorkerPc where
  | absent
  | starting
  | serving (sock : ℤ)
  | closing
  | clearing
  | pushing
  | waiting
  deriving DecidableEq, Repr

/-- A worker entering `readData`: the descriptor it read, the connection behind it, the one last
assigned to the worker, and those it had closed. -/
structure Start where
  worker : Addr
  sock : ℤ
  conn : Option ℕ
  assigned : Option ℕ
  closed : List ℕ
  deriving DecidableEq, Repr

structure State where
  pool : Pool
  accept : AcceptPc
  worker : Addr → WorkerPc
  pending : Addr → Bool
  descriptor : ℤ → Option ℕ
  accepted : ℕ
  threads : List Addr
  idle : List Addr
  assigned : Addr → Option ℕ
  starts : List Start
  finished : List ℕ
  closedBy : Addr → List ℕ

def initial (heap : Addr → ConnectionThread) : State where
  pool := Pool.init heap
  accept := .listening
  worker _ := .absent
  pending _ := false
  descriptor _ := none
  accepted := 0
  threads := []
  idle := []
  assigned _ := none
  starts := []
  finished := []
  closedBy _ := []

/-- The connection accepted last, the only one the accept thread can be busy with. -/
@[grind] def State.current (s : State) : ℕ := s.accepted - 1

inductive Step : State → State → Prop where
  | accept (s) (sock : ℤ) (hpc : s.accept = .listening) (hsock : 0 ≤ sock)
      (hfree : s.descriptor sock = none) :
      Step s { s with
        accept := .testing sock
        descriptor := Function.update s.descriptor sock (some s.accepted)
        accepted := s.accepted + 1 }
  | testEmpty (s) (sock : ℤ) (hpc : s.accept = .testing sock)
      (hidle : s.pool.idleThreads = none) : Step s { s with accept := .creating sock }
  | testIdle (s) (sock : ℤ) (hpc : s.accept = .testing sock)
      (hidle : s.pool.idleThreads ≠ none) : Step s { s with accept := .popping sock }
  | pop (s) (sock : ℤ) (a : Addr) (p : Pool) (hpc : s.accept = .popping sock)
      (hpop : s.pool.popIdle = some (a, p)) :
      Step s { s with accept := .storing sock a, pool := p, idle := s.idle.tail }
  | store (s) (sock : ℤ) (a : Addr) (hpc : s.accept = .storing sock a) :
      Step s { s with
        accept := .signalling a
        pool := s.pool.assign a sock
        assigned := Function.update s.assigned a (some s.current) }
  | signal (s) (a : Addr) (hpc : s.accept = .signalling a) :
      Step s { s with accept := .listening, pending := Function.update s.pending a true }
  | create (s) (sock : ℤ) (a : Addr) (hpc : s.accept = .creating sock) (hnew : a ∉ s.threads) :
      Step s { s with
        accept := .spawning a
        pool := s.pool.linkNew a sock
        threads := a :: s.threads
        assigned := Function.update s.assigned a (some s.current) }
  | spawn (s) (a : Addr) (hpc : s.accept = .spawning a) :
      Step s { s with accept := .listening, worker := Function.update s.worker a .starting }
  | start (s) (a : Addr) (hpc : s.worker a = .starting) :
      Step s { s with
        worker := Function.update s.worker a (.serving (s.pool.sock a))
        starts := ⟨a, s.pool.sock a, s.descriptor (s.pool.sock a), s.assigned a,
          s.closedBy a⟩ :: s.starts }
  | finish (s) (a : Addr) (sock : ℤ) (hpc : s.worker a = .serving sock) :
      Step s { s with
        worker := Function.update s.worker a .closing
        finished := (s.descriptor sock).toList ++ s.finished }
  | close (s) (a : Addr) (hpc : s.worker a = .closing) :
      Step s { s with
        worker := Function.update s.worker a .clearing
        descriptor := Function.update s.descriptor (s.pool.sock a) none
        closedBy := Function.update s.closedBy a
          ((s.descriptor (s.pool.sock a)).toList ++ s.closedBy a) }
  | clear (s) (a : Addr) (hpc : s.worker a = .clearing) :
      Step s { s with
        worker := Function.update s.worker a .pushing
        pool := s.pool.clearSock a }
  | push (s) (a : Addr) (hpc : s.worker a = .pushing) :
      Step s { s with
        worker := Function.update s.worker a .waiting
        pool := s.pool.pushIdle a
        idle := a :: s.idle }
  | wake (s) (a : Addr) (hpc : s.worker a = .waiting) (hpending : s.pending a = true) :
      Step s { s with
        worker := Function.update s.worker a .starting
        pending := Function.update s.pending a false }

inductive Reachable : State → Prop where
  | init (heap : Addr → ConnectionThread) : Reachable (initial heap)
  | step {s t} (r : Reachable s) (h : Step s t) : Reachable t

/-! ### Who is where -/

/-- The accept thread has taken this thread off the idle list and not woken it yet. -/
@[grind] def AcceptPc.holds (a : Addr) : AcceptPc → Prop
  | .storing _ b | .signalling b => a = b
  | _ => False

/-- The program counters, the pending signals and the idle list fit together. -/
structure Control (s : State) : Prop where
  lists : Lists s.idle s.threads s.pool
  absent : ∀ a, s.worker a = .absent ↔ a ∉ s.threads ∨ s.accept = .spawning a
  idle_waiting : ∀ a ∈ s.idle, s.worker a = .waiting
  idle_quiet : ∀ a ∈ s.idle, s.pending a = false
  pending_waiting : ∀ a, s.pending a = true → s.worker a = .waiting
  storing : ∀ sock a, s.accept = .storing sock a →
    s.worker a = .waiting ∧ a ∉ s.idle ∧ s.pending a = false
  signalling : ∀ a, s.accept = .signalling a →
    s.worker a = .waiting ∧ a ∉ s.idle ∧ s.pending a = false
  spawning : ∀ a, s.accept = .spawning a → a ∈ s.threads
  waiting : ∀ a, s.worker a = .waiting → a ∈ s.idle ∨ s.accept.holds a ∨ s.pending a = true
  popping : ∀ sock, s.accept = .popping sock → s.idle ≠ []

theorem control_initial (heap : Addr → ConnectionThread) : Control (initial heap) := by
  constructor <;> simp [initial, AcceptPc.holds, lists_init]

theorem sock_popIdle {p p' : Pool} {a : Addr} (h : p.popIdle = some (a, p')) (b : Addr) :
    p'.sock b = p.sock b := by
  obtain ⟨c, -, heq⟩ := Option.map_eq_some_iff.mp h
  cases heq
  rfl

/-- What is popped is the head of the idle list. -/
theorem Control.pop {s : State} {a : Addr} {p : Pool} (hc : Control s)
    (h : s.pool.popIdle = some (a, p)) :
    s.idle = a :: s.idle.tail ∧ Lists s.idle.tail s.threads p := by
  have hl := hc.lists
  cases hidle : s.idle with
  | nil =>
    have hnone := hl.idle_eq_nil.mpr hidle
    simp [popIdle, hnone] at h
  | cons b rest =>
    rw [hidle] at hl
    obtain ⟨p', hpop, hl', -⟩ := hl.popIdle
    rw [h] at hpop
    cases hpop
    exact ⟨rfl, hl'⟩

section ControlStep
variable {s t : State}

theorem lists_step (h : Step s t) (hc : Control s) : Lists t.idle t.threads t.pool := by
  have hl := hc.lists
  cases h with
  | pop sock a p hpc hpop => exact (hc.pop hpop).2
  | store => exact hl.assign
  | create sock a hpc hnew => exact hl.linkNew hnew
  | clear => exact hl.clearSock
  | push a hpc =>
    have hall := hc.absent a
    have hidle := hc.idle_waiting a
    apply hl.pushIdle <;> grind
  | _ => exact hl

theorem absent_step (h : Step s t) (hc : Control s) :
    ∀ a, t.worker a = .absent ↔ a ∉ t.threads ∨ t.accept = .spawning a := by
  have habsent := hc.absent
  have hspawning := hc.spawning
  cases h <;> grind

theorem idle_waiting_step (h : Step s t) (hc : Control s) :
    ∀ a ∈ t.idle, t.worker a = .waiting := by
  have hidle := hc.idle_waiting
  have hquiet := hc.idle_quiet
  have habsent := hc.absent
  cases h <;> grind [List.mem_of_mem_tail]

theorem idle_quiet_step (h : Step s t) (hc : Control s) : ∀ a ∈ t.idle, t.pending a = false := by
  have hquiet := hc.idle_quiet
  have hsignalling := hc.signalling
  have hpending := hc.pending_waiting
  cases h <;> grind [List.mem_of_mem_tail]

theorem pending_waiting_step (h : Step s t) (hc : Control s) :
    ∀ a, t.pending a = true → t.worker a = .waiting := by
  have hpending := hc.pending_waiting
  have hsignalling := hc.signalling
  have habsent := hc.absent
  cases h <;> grind

theorem storing_step (h : Step s t) (hc : Control s) : ∀ sock a, t.accept = .storing sock a →
    t.worker a = .waiting ∧ a ∉ t.idle ∧ t.pending a = false := by
  have hstoring := hc.storing
  cases h with
  | pop sock a p hpc hpop =>
    have hidle := (hc.pop hpop).1
    have hnd := hc.lists.idle_chain.nodup
    have hwaiting := hc.idle_waiting a
    have hquiet := hc.idle_quiet a
    grind
  | _ => grind

theorem signalling_step (h : Step s t) (hc : Control s) : ∀ a, t.accept = .signalling a →
    t.worker a = .waiting ∧ a ∉ t.idle ∧ t.pending a = false := by
  have hstoring := hc.storing
  have hsignalling := hc.signalling
  cases h <;> grind

theorem spawning_step (h : Step s t) (hc : Control s) :
    ∀ a, t.accept = .spawning a → a ∈ t.threads := by
  have hspawning := hc.spawning
  cases h <;> grind

theorem waiting_step (h : Step s t) (hc : Control s) :
    ∀ a, t.worker a = .waiting → a ∈ t.idle ∨ t.accept.holds a ∨ t.pending a = true := by
  have hwaiting := hc.waiting
  cases h with
  | pop sock a p hpc hpop =>
    have hidle := (hc.pop hpop).1
    grind
  | _ => grind

theorem popping_step (h : Step s t) (hc : Control s) :
    ∀ sock, t.accept = .popping sock → t.idle ≠ [] := by
  have hpopping := hc.popping
  have hempty := hc.lists.idle_eq_nil
  cases h <;> grind

theorem control_step (h : Step s t) (hc : Control s) : Control t where
  lists := lists_step h hc
  absent := absent_step h hc
  idle_waiting := idle_waiting_step h hc
  idle_quiet := idle_quiet_step h hc
  pending_waiting := pending_waiting_step h hc
  storing := storing_step h hc
  signalling := signalling_step h hc
  spawning := spawning_step h hc
  waiting := waiting_step h hc
  popping := popping_step h hc

end ControlStep

/-! ### Whose connection a descriptor is -/

/-- The descriptor the accept thread has taken and not yet given to a thread. -/
@[grind] def AcceptPc.inHand : AcceptPc → Option ℤ
  | .testing sock | .popping sock | .storing sock _ | .creating sock => some sock
  | _ => none

@[grind] def WorkerPc.busy : WorkerPc → Prop
  | .starting | .serving _ | .closing => True
  | _ => False

/-- The thread has been given a connection that it has not closed yet. -/
@[grind] def Held (s : State) (a : Addr) : Prop :=
  s.accept = .signalling a ∨ s.accept = .spawning a ∨ s.pending a = true ∨ (s.worker a).busy

/-- Descriptors, connection numbers and assignments match one to one. -/
structure Ownership (s : State) : Prop where
  handled : ∀ sock, s.accept.inHand = some sock →
    0 ≤ sock ∧ s.descriptor sock = some s.current ∧ 0 < s.accepted
  unassigned : ∀ sock, s.accept.inHand = some sock → ∀ a, s.assigned a ≠ some s.current
  assigned_lt : ∀ a c, s.assigned a = some c → c < s.accepted
  descriptor_lt : ∀ sock c, s.descriptor sock = some c → c < s.accepted
  assigned_inj : ∀ a b c, s.assigned a = some c → s.assigned b = some c → a = b
  descriptor_inj : ∀ x y c, s.descriptor x = some c → s.descriptor y = some c → x = y
  owns : ∀ a, Held s a → ∃ c, s.assigned a = some c ∧
    s.descriptor (s.pool.sock a) = some c ∧ 0 ≤ s.pool.sock a
  serving : ∀ a sock, s.worker a = .serving sock → sock = s.pool.sock a
  newest : ∀ a, s.accept = .signalling a ∨ s.accept = .spawning a →
    s.assigned a = some s.current

theorem ownership_initial (heap : Addr → ConnectionThread) : Ownership (initial heap) := by
  constructor <;> simp [initial, AcceptPc.inHand, Held, WorkerPc.busy]

section OwnershipStep
variable {s t : State}

theorem handled_step (h : Step s t) (ho : Ownership s) : ∀ sock, t.accept.inHand = some sock →
    0 ≤ sock ∧ t.descriptor sock = some t.current ∧ 0 < t.accepted := by
  have hhandled := ho.handled
  cases h with
  | close a hpc =>
    -- The descriptor closed is that of a connection assigned, so it is not the one in hand.
    have howns := ho.owns a
    have hunassigned := ho.unassigned
    grind
  | _ => grind

theorem unassigned_step (h : Step s t) (ho : Ownership s) : ∀ sock, t.accept.inHand = some sock →
    ∀ a, t.assigned a ≠ some t.current := by
  have hunassigned := ho.unassigned
  have hlt := ho.assigned_lt
  cases h <;> grind

theorem assigned_lt_step (h : Step s t) (ho : Ownership s) :
    ∀ a c, t.assigned a = some c → c < t.accepted := by
  have hlt := ho.assigned_lt
  cases h with
  | store sock a hpc =>
    have hhandled := ho.handled sock (by rw [hpc]; rfl)
    grind
  | create sock a hpc =>
    have hhandled := ho.handled sock (by rw [hpc]; rfl)
    grind
  | _ => grind

theorem descriptor_lt_step (h : Step s t) (ho : Ownership s) :
    ∀ sock c, t.descriptor sock = some c → c < t.accepted := by
  have hlt := ho.descriptor_lt
  cases h <;> grind

theorem assigned_inj_step (h : Step s t) (ho : Ownership s) :
    ∀ a b c, t.assigned a = some c → t.assigned b = some c → a = b := by
  have hinj := ho.assigned_inj
  cases h with
  | store sock a hpc =>
    have hunassigned := ho.unassigned sock (by rw [hpc]; rfl)
    grind
  | create sock a hpc =>
    have hunassigned := ho.unassigned sock (by rw [hpc]; rfl)
    grind
  | _ => exact hinj

theorem descriptor_inj_step (h : Step s t) (ho : Ownership s) :
    ∀ x y c, t.descriptor x = some c → t.descriptor y = some c → x = y := by
  have hinj := ho.descriptor_inj
  have hlt := ho.descriptor_lt
  cases h <;> grind

theorem serving_step (h : Step s t) (hc : Control s) (ho : Ownership s) :
    ∀ a sock, t.worker a = .serving sock → sock = t.pool.sock a := by
  have hserving := ho.serving
  cases h with
  | pop sock a p hpc hpop =>
    have hsock := sock_popIdle hpop
    grind
  | store sock a hpc =>
    have hstoring := hc.storing sock a hpc
    grind [sock_assign]
  | create sock a hpc hnew =>
    have habsent := hc.absent a
    grind [sock_linkNew]
  | clear => grind [sock_clearSock]
  | push => grind [sock_pushIdle]
  | _ => grind

theorem newest_step (h : Step s t) (ho : Ownership s) : ∀ a,
    t.accept = .signalling a ∨ t.accept = .spawning a → t.assigned a = some t.current := by
  have hnewest := ho.newest
  cases h <;> grind

theorem owns_step (h : Step s t) (hc : Control s) (ho : Ownership s) : ∀ a, Held t a →
    ∃ c, t.assigned a = some c ∧ t.descriptor (t.pool.sock a) = some c ∧ 0 ≤ t.pool.sock a := by
  have howns := ho.owns
  simp only [Held] at howns ⊢
  cases h with
  | pop sock a p hpc hpop =>
    have hsock := sock_popIdle hpop
    grind
  | store sock a hpc =>
    have hhandled := ho.handled sock (by rw [hpc]; rfl)
    grind [sock_assign]
  | create sock a hpc hnew =>
    have hhandled := ho.handled sock (by rw [hpc]; rfl)
    grind [sock_linkNew]
  | close a hpc =>
    have hinj := ho.assigned_inj
    have hdinj := ho.descriptor_inj
    have hpending := hc.pending_waiting
    have hsignalling := hc.signalling
    have habsent := hc.absent
    grind
  | clear a hpc =>
    have hpending := hc.pending_waiting
    have hsignalling := hc.signalling
    have habsent := hc.absent
    grind [sock_clearSock]
  | push => grind [sock_pushIdle]
  | _ => grind

theorem ownership_step (h : Step s t) (hc : Control s) (ho : Ownership s) : Ownership t where
  handled := handled_step h ho
  unassigned := unassigned_step h ho
  assigned_lt := assigned_lt_step h ho
  descriptor_lt := descriptor_lt_step h ho
  assigned_inj := assigned_inj_step h ho
  descriptor_inj := descriptor_inj_step h ho
  owns := owns_step h hc ho
  serving := serving_step h hc ho
  newest := newest_step h ho

end OwnershipStep

/-! ### What has been served -/

@[grind] def started (s : State) : List (Option ℕ) := s.starts.map Start.conn

/-- The thread has been given a connection and has not entered `readData` with it yet. -/
@[grind] def Due (s : State) (a : Addr) : Prop :=
  s.accept = .signalling a ∨ s.accept = .spawning a ∨ s.pending a = true ∨ s.worker a = .starting

@[grind] def WorkerPc.begun : WorkerPc → Prop
  | .serving _ | .closing => True
  | _ => False

/-- The worker serves an open connection, the one last assigned to it, which it never closed. -/
def Start.Right (st : Start) : Prop :=
  0 ≤ st.sock ∧ ∃ c, st.conn = some c ∧ st.assigned = some c ∧ c ∉ st.closed

structure Service (s : State) : Prop where
  due_new : ∀ a c, Due s a → s.assigned a = some c → some c ∉ started s
  current_new : ∀ sock, s.accept.inHand = some sock → some s.current ∉ started s
  started_lt : ∀ c, some c ∈ started s → c < s.accepted
  begun_started : ∀ a c, (s.worker a).begun → s.assigned a = some c → some c ∈ started s
  closed_started : ∀ a c, c ∈ s.closedBy a → some c ∈ started s
  right : ∀ st ∈ s.starts, st.Right
  nodup : (started s).Nodup

theorem service_initial (heap : Addr → ConnectionThread) : Service (initial heap) := by
  constructor <;> simp [initial, started, AcceptPc.inHand, WorkerPc.begun]

section ServiceStep
variable {s t : State}

/-- The connection a worker starts with is the one assigned to it, and has not been served. -/
theorem start_new {a : Addr} (hpc : s.worker a = .starting) (ho : Ownership s) (hs : Service s) :
    ∃ c, s.assigned a = some c ∧ s.descriptor (s.pool.sock a) = some c ∧ 0 ≤ s.pool.sock a ∧
      some c ∉ started s := by
  obtain ⟨c, hassigned, hdesc, hsock⟩ := ho.owns a (by simp [Held, hpc, WorkerPc.busy])
  exact ⟨c, hassigned, hdesc, hsock, hs.due_new a c (by simp [Due, hpc]) hassigned⟩

theorem due_new_step (h : Step s t) (hc : Control s) (ho : Ownership s) (hs : Service s) :
    ∀ a c, Due t a → t.assigned a = some c → some c ∉ started t := by
  have hdue := hs.due_new
  simp only [Due] at hdue ⊢
  cases h with
  | store sock a hpc =>
    have hcurrent := hs.current_new sock (by rw [hpc]; rfl)
    grind
  | create sock a hpc =>
    have hcurrent := hs.current_new sock (by rw [hpc]; rfl)
    grind
  | start a hpc =>
    obtain ⟨c, hassigned, hdesc, -, -⟩ := start_new hpc ho hs
    have hinj := ho.assigned_inj
    have hpending := hc.pending_waiting
    have hsignalling := hc.signalling
    have habsent := hc.absent
    grind
  | _ => grind

theorem current_new_step (h : Step s t) (ho : Ownership s) (hs : Service s) :
    ∀ sock, t.accept.inHand = some sock → some t.current ∉ started t := by
  have hcurrent := hs.current_new
  have hlt := hs.started_lt
  cases h with
  | start a hpc =>
    obtain ⟨c, hassigned, hdesc, -, -⟩ := start_new hpc ho hs
    have hunassigned := ho.unassigned
    grind
  | _ => grind

theorem started_lt_step (h : Step s t) (ho : Ownership s) (hs : Service s) :
    ∀ c, some c ∈ started t → c < t.accepted := by
  have hlt := hs.started_lt
  have hdlt := ho.descriptor_lt
  cases h <;> grind

theorem begun_started_step (h : Step s t) (hc : Control s) (ho : Ownership s) (hs : Service s) :
    ∀ a c, (t.worker a).begun → t.assigned a = some c → some c ∈ started t := by
  have hbegun := hs.begun_started
  cases h with
  | store sock a hpc =>
    have hstoring := hc.storing sock a hpc
    grind
  | create sock a hpc hnew =>
    have habsent := hc.absent a
    grind
  | start a hpc =>
    obtain ⟨c, hassigned, hdesc, -, -⟩ := start_new hpc ho hs
    grind
  | _ => grind

theorem closed_started_step (h : Step s t) (ho : Ownership s) (hs : Service s) :
    ∀ a c, c ∈ t.closedBy a → some c ∈ started t := by
  have hclosed := hs.closed_started
  cases h with
  | close a hpc =>
    have howns := ho.owns a (by simp [Held, hpc, WorkerPc.busy])
    have hbegun := hs.begun_started a
    grind
  | _ => grind

theorem right_step (h : Step s t) (ho : Ownership s) (hs : Service s) :
    ∀ st ∈ t.starts, st.Right := by
  have hright := hs.right
  cases h with
  | start a hpc =>
    obtain ⟨c, hassigned, hdesc, hsock, hnew⟩ := start_new hpc ho hs
    intro st hst
    rcases List.mem_cons.mp hst with rfl | hst
    · refine ⟨hsock, c, hdesc, hassigned, ?_⟩
      intro hclosed
      exact hnew (hs.closed_started a c hclosed)
    · exact hright st hst
  | _ => exact hright

theorem nodup_step (h : Step s t) (ho : Ownership s) (hs : Service s) : (started t).Nodup := by
  have hnodup := hs.nodup
  cases h with
  | start a hpc =>
    obtain ⟨c, -, hdesc, -, hnew⟩ := start_new hpc ho hs
    apply List.nodup_cons.mpr
    exact ⟨by rwa [hdesc], hnodup⟩
  | _ => exact hnodup

theorem service_step (h : Step s t) (hc : Control s) (ho : Ownership s) (hs : Service s) :
    Service t where
  due_new := due_new_step h hc ho hs
  current_new := current_new_step h ho hs
  started_lt := started_lt_step h ho hs
  begun_started := begun_started_step h hc ho hs
  closed_started := closed_started_step h ho hs
  right := right_step h ho hs
  nodup := nodup_step h ho hs

end ServiceStep

/-! ### Where the rest is -/

@[grind] def WorkerPc.isServing : WorkerPc → Prop
  | .serving _ => True
  | _ => False

/-- No connection is lost: it has been served to its end, the accept thread is still busy with
it, or it is assigned to a thread that serves it or is due to. -/
def Placed (s : State) : Prop :=
  ∀ c < s.accepted, c ∈ s.finished ∨ (s.accept.inHand.isSome ∧ c = s.current) ∨
    ∃ a, s.assigned a = some c ∧ (Due s a ∨ (s.worker a).isServing)

theorem placed_step {s t : State} (h : Step s t) (hc : Control s) (ho : Ownership s)
    (hp : Placed s) : Placed t := by
  have hunassigned := ho.unassigned
  have hlt := ho.assigned_lt
  unfold Placed at hp ⊢
  simp only [Due] at hp ⊢
  cases h with
  | store sock a hpc =>
    have hstoring := hc.storing sock a hpc
    grind
  | create sock a hpc hnew =>
    have habsent := hc.absent a
    have hpending := hc.pending_waiting a
    grind
  | finish a sock hpc =>
    have howns := ho.owns a (by simp [Held, hpc, WorkerPc.busy])
    have hserving := ho.serving a sock hpc
    grind
  | _ => grind

structure Invariant (s : State) : Prop where
  control : Control s
  ownership : Ownership s
  service : Service s
  placed : Placed s

theorem reachable_invariant {s : State} (r : Reachable s) : Invariant s := by
  induction r with
  | init heap =>
    exact ⟨control_initial heap, ownership_initial heap, service_initial heap,
      fun c hc => absurd hc (Nat.not_lt_zero c)⟩
  | step _ h ih =>
    rcases ih with ⟨hc, ho, hs, hp⟩
    exact ⟨control_step h hc, ownership_step h hc ho, service_step h hc ho hs,
      placed_step h hc ho hp⟩

/-- The pop never meets a null pointer, although the list is tested outside its lock. -/
theorem pop_ready {s : State} {sock : ℤ} (r : Reachable s) (hpc : s.accept = .popping sock) :
    ∃ a p, s.pool.popIdle = some (a, p) := by
  have hc := (reachable_invariant r).control
  cases hidle : s.idle with
  | nil => exact absurd hidle (hc.popping sock hpc)
  | cons a rest =>
    obtain ⟨p, hpop, -⟩ := (hidle ▸ hc.lists).popIdle
    exact ⟨a, p, hpop⟩

def Active (s : State) (a : Addr) : Prop :=
  (s.worker a).isServing ∨ s.worker a = .starting ∨ s.worker a = .waiting ∧ s.pending a = true

/-- The worker is serving the connection, about to enter `readData` with it, or has the signal
for it pending. -/
def Holds (s : State) (a : Addr) (c : ℕ) : Prop :=
  s.descriptor (s.pool.sock a) = some c ∧ Active s a

/-- The call of `handleNewConnection` for the connection is over. -/
def HandedOff (s : State) (c : ℕ) : Prop :=
  c < s.accepted ∧ (s.accept = .listening ∨ c ≠ s.current)

structure HandoffExact (s : State) : Prop where
  served_once : (started s).Nodup
  served_right : ∀ st ∈ s.starts, st.Right
  held_by_one : ∀ c, HandedOff s c → c ∉ s.finished → ∃ a, Holds s a c ∧ ∀ b, Holds s b c → b = a

theorem held_of_active {s : State} {a : Addr} (h : Active s a) : Held s a := by
  rcases h with h | h | ⟨-, h⟩
  · cases hw : s.worker a with
    | serving sock => simp [Held, hw, WorkerPc.busy]
    | _ => simp [hw, WorkerPc.isServing] at h
  · simp [Held, h, WorkerPc.busy]
  · exact .inr (.inr (.inl h))

/-- The accept thread is done with the connection, so only a worker can have it. -/
theorem Invariant.active_of_handedOff {s : State} {c : ℕ} (hi : Invariant s)
    (hoff : HandedOff s c) (hfin : c ∉ s.finished) :
    ∃ a, s.assigned a = some c ∧ Active s a := by
  rcases hoff with ⟨hlt, hdone⟩
  rcases hi.placed c hlt with h | ⟨hsock, hcur⟩ | ⟨a, ha, hact⟩
  · exact absurd h hfin
  · rcases hdone with hl | hne
    · simp [hl, AcceptPc.inHand] at hsock
    · exact absurd hcur hne
  · refine ⟨a, ha, ?_⟩
    have hnewest := hi.ownership.newest a
    have hwaiting := hi.control.pending_waiting a
    grind [Active]

theorem Invariant.descriptor_of_active {s : State} {a : Addr} {c : ℕ} (hi : Invariant s)
    (ha : s.assigned a = some c) (hact : Active s a) : s.descriptor (s.pool.sock a) = some c := by
  obtain ⟨d, hd, hdesc, -⟩ := hi.ownership.owns a (held_of_active hact)
  rw [ha] at hd
  cases hd
  exact hdesc

theorem Invariant.assigned_of_holds {s : State} {a : Addr} {c : ℕ} (hi : Invariant s)
    (h : Holds s a c) : s.assigned a = some c := by
  rcases h with ⟨hdesc, hact⟩
  obtain ⟨d, hd, hdesc', -⟩ := hi.ownership.owns a (held_of_active hact)
  rw [hdesc] at hdesc'
  cases hdesc'
  exact hd

theorem handoff_exact {s : State} (r : Reachable s) : HandoffExact s := by
  have hi := reachable_invariant r
  constructor
  · exact hi.service.nodup
  · exact hi.service.right
  · intro c hoff hfin
    obtain ⟨a, ha, hact⟩ := hi.active_of_handedOff hoff hfin
    refine ⟨a, ⟨hi.descriptor_of_active ha hact, hact⟩, ?_⟩
    intro b hb
    exact hi.ownership.assigned_inj b a c (hi.assigned_of_holds hb) ha

/-- A first connection is served and its thread released; the second one reuses the thread and
the descriptor, and waits in the pending signal. -/
theorem handoff_exact_after_reuse :
    ∃ s, s.accepted = 2 ∧ started s = [some 0] ∧ s.finished = [0] ∧ s.pending 0 = true ∧
      HandoffExact s := by
  have r := Reachable.init fun _ => ⟨0, 0, 0, fun _ => 0, none, none⟩
  replace r := r.step (.accept _ 5 rfl (by decide) rfl)
  replace r := r.step (.testEmpty _ 5 rfl rfl)
  replace r := r.step (.create _ 5 0 rfl (by simp [initial]))
  replace r := r.step (.spawn _ 0 rfl)
  replace r := r.step (.start _ 0 rfl)
  replace r := r.step (.finish _ 0 5 rfl)
  replace r := r.step (.close _ 0 rfl)
  replace r := r.step (.clear _ 0 rfl)
  replace r := r.step (.push _ 0 rfl)
  replace r := r.step (.accept _ 5 rfl (by decide) rfl)
  replace r := r.step (.testIdle _ 5 rfl (Option.some_ne_none 0))
  replace r := r.step (.pop _ 5 0 _ rfl rfl)
  replace r := r.step (.store _ 5 0 rfl)
  replace r := r.step (.signal _ 0 rfl)
  exact ⟨_, rfl, rfl, rfl, rfl, handoff_exact r⟩

end ThreadPoolHandoff
