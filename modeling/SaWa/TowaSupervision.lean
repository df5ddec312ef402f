import SaWa.GuardedRuns
import Mathlib.Logic.Function.Basic
import Mathlib.Algebra.Group.Nat.Defs

/-! `TowaMgr` and its processes: `check` asks for the towa process before each message and starts
another when it is gone. Processes exit at any time. A process id is not given twice. With `-daemon`
the process that goes on is a child of the one that has started towa. -/
namespace TowaSupervision

open GuardedRuns

inductive Kind where
  | towa
  | shell
  deriving DecidableEq, Repr

/-- A child of `sawad` that has not been waited for; `uncompressWar` leaves the shells. -/
structure Child where
  kind : Kind
  exited : Bool
  deriving DecidableEq, Repr

/-- Where a thread is in `check`, and in `start` behind its test. -/
inductive Pc where
  | idle
  | scanning
  | forking
  | confirming
  | sending
  | thrown
  deriving DecidableEq, Repr

/-- The member `pid`, `none` being the -1 of a `fork` that failed, and the process table; `started`
and `waited` are history. The `orphans` are children of the process that `start_as_daemon` has
left. -/
structure State (ι : Type) where
  pid : Option ℕ
  children : ℕ → Option Child
  orphans : ℕ → Option Child
  fresh : ℕ
  pc : ι → Pc
  started : List ℕ
  waited : List ℕ

/-- What `waitpid` returns: -1, 0 or the process that it has waited for. -/
inductive Wait where
  | error
  | running
  | reaped (p : ℕ)
  deriving DecidableEq, Repr

inductive Action (ι : Type) where
  | check (t : ι) (r : Wait)
  | scan (t : ι) (archives : ℕ)
  | fork (t : ι) (ok : Bool)
  | confirm (t : ι) (r : Wait)
  | reply (t : ι)
  | exit (p : ℕ)
  | daemon

section Manager
variable {ι : Type}

/-- The processes that `waitpid(pid, 0, WNOHANG)` is about: -1 stands for every child. -/
def Asked (s : State ι) (p : ℕ) : Prop := s.pid = none ∨ s.pid = some p

def Waits (s : State ι) : Wait → Prop
  | .error => ∀ p, Asked s p → s.children p = none
  | .running => (∃ p, Asked s p ∧ s.children p ≠ none) ∧
      ∀ p c, Asked s p → s.children p = some c → c.exited = false
  | .reaped p => Asked s p ∧ ∃ c, s.children p = some c ∧ c.exited = true

/-- A process that has been waited for leaves the table. -/
def State.reap (s : State ι) : Wait → State ι
  | .reaped p =>
    { s with
      children := Function.update s.children p none
      waited := if (s.children p).map Child.kind = some .towa then p :: s.waited else s.waited }
  | _ => s

/-- An exception out of `check` ends `sawad`. -/
def Alive (s : State ι) : Prop := ∀ t, s.pc t ≠ .thrown

def Enabled (s : State ι) : Action ι → Prop
  | .check t r => Alive s ∧ s.pc t = .idle ∧ Waits s r
  | .scan t _ => Alive s ∧ s.pc t = .scanning
  | .fork t _ => Alive s ∧ s.pc t = .forking
  | .confirm t r => Alive s ∧ s.pc t = .confirming ∧ Waits s r
  | .reply t => Alive s ∧ s.pc t = .sending
  | .exit p => ∃ c, s.children p = some c ∧ c.exited = false
  | .daemon => ∀ t, s.pc t = .idle

/-- One shell for each archive that is unpacked. -/
def State.unpack (s : State ι) (archives : ℕ) : State ι :=
  { s with
    children := fun p =>
      if s.fresh ≤ p ∧ p < s.fresh + archives then some ⟨.shell, false⟩ else s.children p
    fresh := s.fresh + archives }

/-- The parent's side of `fork`. -/
def State.forked (s : State ι) (ok : Bool) : State ι :=
  if ok then
    { s with
      pid := some s.fresh
      children := Function.update s.children s.fresh (some ⟨.towa, false⟩)
      fresh := s.fresh + 1
      started := s.fresh :: s.started }
  else { s with pid := none }

def State.exited (s : State ι) (p : ℕ) : State ι :=
  { s with children := Function.update s.children p ((s.children p).map fun c => ⟨c.kind, true⟩) }

/-- The child's side of the `fork` in `start_as_daemon`: it has the member `pid` and no children. -/
def State.daemonized (s : State ι) : State ι :=
  { s with
    children := fun _ => none
    orphans := s.children }

variable [DecidableEq ι]

def State.goto (s : State ι) (t : ι) (pc : Pc) : State ι :=
  { s with pc := Function.update s.pc t pc }

def next (s : State ι) : Action ι → State ι
  | .check t r => (s.reap r).goto t (if r = .running then .sending else .scanning)
  | .scan t archives => (s.unpack archives).goto t .forking
  | .fork t ok => (s.forked ok).goto t .confirming
  | .confirm t r => (s.reap r).goto t (if r = .running then .sending else .thrown)
  | .reply t => s.goto t .idle
  | .exit p => s.exited p
  | .daemon => s.daemonized

/-- The thread of the constructor is in `start`, where `pid` has not been set. -/
def initial (t : ι) (pid : Option ℕ) : State ι :=
  ⟨pid, fun _ => none, fun _ => none, 0, Function.update (fun _ => .idle) t .scanning, [], []⟩

def manager : System (State ι) (Action ι) :=
  ⟨fun s => ∃ t pid, s = initial t pid, Enabled, next⟩

end Manager

section Supervision
variable {ι : Type}

/-- In `start`. -/
def Pc.Busy (pc : Pc) : Prop := pc = .scanning ∨ pc = .forking ∨ pc = .confirming

/-- Before the `fork`. -/
def Starting (s : State ι) : Prop := ∃ t, s.pc t = .scanning ∨ s.pc t = .forking

/-- A check begins when no other is in `start`, and `sawad` is not made a daemon. -/
def Alone (s : State ι) : Action ι → Prop
  | .check _ _ => ∀ t, ¬ (s.pc t).Busy
  | .daemon => False
  | _ => True

def IsTowa (s : State ι) (p : ℕ) : Prop := ∃ c, s.children p = some c ∧ c.kind = .towa

/-- A towa process, of this `sawad` or left over. -/
def TowaProcess (s : State ι) (p : ℕ) : Prop :=
  IsTowa s p ∨ ∃ c, s.orphans p = some c ∧ c.kind = .towa

/-- The process table and the history of the towa processes. -/
structure Table (s : State ι) : Prop where
  below : ∀ p c, s.children p = some c → p < s.fresh
  kept : ∀ p ∈ s.started, p ∈ s.waited ∨ IsTowa s p
  waited_once : s.waited.Nodup
  waited_gone : ∀ p ∈ s.waited, s.children p = none ∧ p < s.fresh
  none_left : ∀ p, s.orphans p = none

/-- One thread at most is in `start`; no towa process is there before the `fork`, and only the one
that `pid` names otherwise. -/
structure Control (s : State ι) : Prop where
  one_busy : ∀ t u, (s.pc t).Busy → (s.pc u).Busy → t = u
  gone : Starting s → ∀ p, ¬ IsTowa s p
  named : ¬ Starting s → ∀ p c, s.children p = some c → (c.kind = .towa ↔ s.pid = some p)

section Tables
variable {s : State ι} {r : Wait} {p q : ℕ}

@[simp] theorem reap_pid (s : State ι) (r : Wait) : (s.reap r).pid = s.pid := by
  cases r <;> rfl

@[simp] theorem reap_pc (s : State ι) (r : Wait) : (s.reap r).pc = s.pc := by
  cases r <;> rfl

@[simp] theorem reap_fresh (s : State ι) (r : Wait) : (s.reap r).fresh = s.fresh := by
  cases r <;> rfl

@[simp] theorem reap_started (s : State ι) (r : Wait) : (s.reap r).started = s.started := by
  cases r <;> rfl

@[simp] theorem reap_orphans (s : State ι) (r : Wait) : (s.reap r).orphans = s.orphans := by
  cases r <;> rfl

theorem reap_children {c : Child} : (s.reap r).children q = some c ↔
    s.children q = some c ∧ r ≠ .reaped q := by
  cases r with
  | error => simp [State.reap]
  | running => simp [State.reap]
  | reaped p =>
    by_cases hq : q = p
    · simp [State.reap, hq]
    · simp [State.reap, hq, Ne.symm hq]

theorem isTowa_reap : IsTowa (s.reap r) q ↔ IsTowa s q ∧ r ≠ .reaped q := by
  simp only [IsTowa, reap_children]
  constructor
  · rintro ⟨c, ⟨hc, hr⟩, hk⟩
    exact ⟨⟨c, hc, hk⟩, hr⟩
  · rintro ⟨⟨c, hc, hk⟩, hr⟩
    exact ⟨c, ⟨hc, hr⟩, hk⟩

theorem mem_waited_reap : q ∈ (s.reap r).waited ↔ q ∈ s.waited ∨ (r = .reaped q ∧ IsTowa s q) := by
  cases r with
  | error => simp [State.reap]
  | running => simp [State.reap]
  | reaped p =>
    have hkind : (s.children p).map Child.kind = some .towa ↔ IsTowa s p := Option.map_eq_some_iff
    by_cases ht : IsTowa s p
    · rw [State.reap, if_pos (hkind.mpr ht), List.mem_cons, or_comm, Wait.reaped.injEq]
      refine or_congr_right ⟨?_, fun he => he.1.symm⟩
      rintro rfl
      exact ⟨rfl, ht⟩
    · rw [State.reap, if_neg (mt hkind.mp ht), Wait.reaped.injEq]
      refine ⟨Or.inl, fun hq => hq.resolve_right ?_⟩
      rintro ⟨rfl, hq⟩
      exact ht hq

theorem table_goto [DecidableEq ι] (h : Table s) (t : ι) (pc : Pc) : Table (s.goto t pc) :=
  ⟨h.below, h.kept, h.waited_once, h.waited_gone, h.none_left⟩

theorem table_reap (h : Table s) : Table (s.reap r) where
  below := by
    intro p c hc
    rw [reap_fresh]
    exact h.below p c (reap_children.mp hc).1
  kept := by
    intro p hp
    rw [reap_started] at hp
    rw [mem_waited_reap, isTowa_reap]
    rcases h.kept p hp with hw | ht
    · exact Or.inl (Or.inl hw)
    · by_cases hr : r = .reaped p
      · exact Or.inl (Or.inr ⟨hr, ht⟩)
      · exact Or.inr ⟨ht, hr⟩
  waited_once := by
    cases r with
    | error => exact h.waited_once
    | running => exact h.waited_once
    | reaped p =>
      simp only [State.reap]
      split
      · next hp =>
        refine List.nodup_cons.mpr ⟨fun hw => ?_, h.waited_once⟩
        rw [(h.waited_gone p hw).1] at hp
        cases hp
      · exact h.waited_once
  waited_gone := by
    intro p hp
    have hnone : ∀ c, (s.reap r).children p ≠ some c := by
      intro c hc
      obtain ⟨hc, hr⟩ := reap_children.mp hc
      rcases mem_waited_reap.mp hp with hw | hw
      · rw [(h.waited_gone p hw).1] at hc
        cases hc
      · exact hr hw.1
    refine ⟨Option.eq_none_iff_forall_ne_some.mpr hnone, ?_⟩
    rw [reap_fresh]
    rcases mem_waited_reap.mp hp with hw | ⟨-, c, hc, -⟩
    · exact (h.waited_gone p hw).2
    · exact h.below p c hc
  none_left := by
    rw [reap_orphans]
    exact h.none_left

theorem isTowa_unpack (h : Table s) (archives : ℕ) :
    IsTowa (s.unpack archives) q ↔ IsTowa s q := by
  simp only [IsTowa, State.unpack]
  split
  · next hq =>
    constructor
    · rintro ⟨c, hc, hk⟩
      obtain rfl := Option.some.inj hc
      cases hk
    · rintro ⟨c, hc, -⟩
      exact absurd (h.below q c hc) (Nat.not_lt.mpr hq.1)
  · rfl

theorem table_unpack (h : Table s) (archives : ℕ) : Table (s.unpack archives) where
  below := by
    intro p c hc
    show p < s.fresh + archives
    by_cases hp : s.fresh ≤ p ∧ p < s.fresh + archives
    · exact hp.2
    · simp only [State.unpack, if_neg hp] at hc
      exact Nat.lt_add_right archives (h.below p c hc)
  kept := by
    intro p hp
    rw [isTowa_unpack h]
    exact h.kept p hp
  waited_once := h.waited_once
  waited_gone := by
    intro p hp
    obtain ⟨hnone, hlt⟩ := h.waited_gone p hp
    have hold : ¬ (s.fresh ≤ p ∧ p < s.fresh + archives) := fun hn => absurd hlt (by omega)
    exact ⟨by simp only [State.unpack, if_neg hold, hnone], Nat.lt_add_right archives hlt⟩
  none_left := h.none_left

theorem isTowa_forked : IsTowa (s.forked true) q ↔ IsTowa s q ∨ q = s.fresh := by
  simp only [IsTowa, State.forked, if_true]
  by_cases hq : q = s.fresh
  · simp [hq]
  · simp [hq]

theorem table_forked (h : Table s) (ok : Bool) : Table (s.forked ok) := by
  cases ok with
  | false => exact ⟨h.below, h.kept, h.waited_once, h.waited_gone, h.none_left⟩
  | true =>
    refine ⟨?_, ?_, h.waited_once, ?_, h.none_left⟩
    · intro p c hc
      show p < s.fresh + 1
      by_cases hp : p = s.fresh
      · omega
      · simp only [State.forked, if_true, Function.update_of_ne hp] at hc
        exact Nat.lt_succ_of_lt (h.below p c hc)
    · intro p hp
      rw [isTowa_forked]
      rcases List.mem_cons.mp hp with rfl | hp
      · exact Or.inr (Or.inr rfl)
      · exact (h.kept p hp).imp_right Or.inl
    · intro p hp
      obtain ⟨hnone, hlt⟩ := h.waited_gone p hp
      refine ⟨?_, Nat.lt_succ_of_lt hlt⟩
      simp only [State.forked, if_true, Function.update_of_ne (Nat.ne_of_lt hlt), hnone]

theorem exited_children {c : Child} (hc : (s.exited p).children q = some c) :
    ∃ c', s.children q = some c' ∧ c'.kind = c.kind := by
  by_cases hq : q = p
  · subst hq
    simp only [State.exited, Function.update_self] at hc
    obtain ⟨c', hc', rfl⟩ := Option.map_eq_some_iff.mp hc
    exact ⟨c', hc', rfl⟩
  · simp only [State.exited, Function.update_of_ne hq] at hc
    exact ⟨c, hc, rfl⟩

theorem isTowa_exited : IsTowa (s.exited p) q ↔ IsTowa s q := by
  constructor
  · rintro ⟨c, hc, hk⟩
    obtain ⟨c', hc', hkind⟩ := exited_children hc
    exact ⟨c', hc', hkind.trans hk⟩
  · rintro ⟨c, hc, hk⟩
    by_cases hq : q = p
    · subst hq
      exact ⟨⟨c.kind, true⟩, by simp [State.exited, hc], hk⟩
    · exact ⟨c, by simp [State.exited, hq, hc], hk⟩

theorem table_exited (h : Table s) (p : ℕ) : Table (s.exited p) where
  below := by
    intro q c hc
    obtain ⟨c', hc', -⟩ := exited_children hc
    exact h.below q c' hc'
  kept := by
    intro q hq
    rw [isTowa_exited]
    exact h.kept q hq
  waited_once := h.waited_once
  waited_gone := by
    intro q hq
    obtain ⟨hnone, hlt⟩ := h.waited_gone q hq
    refine ⟨Option.eq_none_iff_forall_ne_some.mpr fun c hc => ?_, hlt⟩
    obtain ⟨c', hc', -⟩ := exited_children hc
    rw [hnone] at hc'
    cases hc'
  none_left := h.none_left

end Tables

/-! ### Steps -/

section Steps
variable [DecidableEq ι] {s : State ι} {t : ι} {pc : Pc}

theorem starting_goto (h : pc ≠ .scanning ∧ pc ≠ .forking) (hs : Starting (s.goto t pc)) :
    ∃ u ≠ t, s.pc u = .scanning ∨ s.pc u = .forking := by
  obtain ⟨u, hu⟩ := hs
  have hne : u ≠ t := by
    rintro rfl
    simp only [State.goto, Function.update_self] at hu
    exact hu.elim h.1 h.2
  simp only [State.goto, Function.update_of_ne hne] at hu
  exact ⟨u, hne, hu⟩

/-- Threads stay alone in `start` when one of them moves on there, or enters it alone. -/
theorem one_busy_goto (h : ∀ u v, (s.pc u).Busy → (s.pc v).Busy → u = v)
    (ht : ∀ u, (s.pc u).Busy → pc.Busy → u = t) :
    ∀ u v, ((s.goto t pc).pc u).Busy → ((s.goto t pc).pc v).Busy → u = v := by
  intro u v hu hv
  by_cases hut : u = t <;> by_cases hvt : v = t
  · rw [hut, hvt]
  · subst hut
    simp only [State.goto, Function.update_self, Function.update_of_ne hvt] at hu hv
    exact (ht v hv hu).symm
  · subst hvt
    simp only [State.goto, Function.update_self, Function.update_of_ne hut] at hu hv
    exact ht u hu hv
  · simp only [State.goto, Function.update_of_ne hut, Function.update_of_ne hvt] at hu hv
    exact h u v hu hv

theorem control_check {r : Wait} (h : Control s) (hr : Waits s r) (halone : ∀ u, ¬ (s.pc u).Busy) :
    Control (next s (.check t r)) := by
  have hquiet : ¬ Starting s := fun ⟨u, hu⟩ => halone u (hu.imp_right Or.inl)
  have hnamed := h.named hquiet
  have hbusy : ∀ u v, ((s.reap r).pc u).Busy → ((s.reap r).pc v).Busy → u = v := by
    rw [reap_pc]
    exact fun u _ hu => absurd hu (halone u)
  have hnone : ∀ pc : Pc, ∀ u, ((s.reap r).pc u).Busy → pc.Busy → u = t := by
    rw [reap_pc]
    exact fun _ u hu => absurd hu (halone u)
  by_cases hrun : r = .running
  · subst hrun
    refine ⟨one_busy_goto hbusy (hnone _), ?_, fun _ => hnamed⟩
    intro hs
    obtain ⟨u, -, hu⟩ := starting_goto (by simp) hs
    exact absurd ⟨u, hu⟩ hquiet
  · simp only [next, if_neg hrun]
    refine ⟨one_busy_goto hbusy (hnone _), ?_, ?_⟩
    · intro _ q hq
      -- the process that `pid` names is the one waited for
      obtain ⟨⟨c, hc, hk⟩, hne⟩ := isTowa_reap.mp hq
      have hpid : s.pid = some q := (hnamed q c hc).mp hk
      cases r with
      | error =>
        rw [hr q (Or.inr hpid)] at hc
        cases hc
      | running => exact hrun rfl
      | reaped p =>
        rcases hr.1 with hp | hp
        · rw [hpid] at hp
          cases hp
        · rw [hpid] at hp
          exact hne (congrArg Wait.reaped (Option.some.inj hp).symm)
    · intro hs
      exact absurd ⟨t, Or.inl (by simp [State.goto])⟩ hs

theorem control_scan {archives : ℕ} (h : Control s) (htable : Table s) (ht : s.pc t = .scanning) :
    Control (next s (.scan t archives)) := by
  have hstart : Starting s := ⟨t, Or.inl ht⟩
  refine ⟨one_busy_goto h.one_busy fun u hu _ => h.one_busy u t hu (Or.inl ht), ?_, ?_⟩
  · intro _ q hq
    exact h.gone hstart q ((isTowa_unpack htable archives).mp hq)
  · intro hs
    exact absurd ⟨t, Or.inr (by simp [next, State.goto])⟩ hs

theorem control_fork {ok : Bool} (h : Control s) (ht : s.pc t = .forking) :
    Control (next s (.fork t ok)) := by
  have hstart : Starting s := ⟨t, Or.inr ht⟩
  have hpc : (s.forked ok).pc = s.pc := by cases ok <;> rfl
  have hbusy : (s.pc t).Busy := Or.inr (Or.inl ht)
  have hnot : ¬ Starting ((s.forked ok).goto t .confirming) := by
    intro hs
    obtain ⟨u, hne, hu⟩ := starting_goto (by simp) hs
    rw [hpc] at hu
    exact hne (h.one_busy u t (hu.imp_right Or.inl) hbusy)
  refine ⟨one_busy_goto (by rw [hpc]; exact h.one_busy) ?_, fun hs => absurd hs hnot, ?_⟩
  · intro u hu _
    rw [hpc] at hu
    exact h.one_busy u t hu hbusy
  · intro _ p c hc
    have hother : s.children p = some c → c.kind ≠ .towa :=
      fun hc hk => h.gone hstart p ⟨c, hc, hk⟩
    cases ok with
    | false => exact iff_of_false (hother hc) (by simp [next, State.goto, State.forked])
    | true =>
      by_cases hp : p = s.fresh
      · subst hp
        simp only [next, State.goto, State.forked, if_true, Function.update_self] at hc
        obtain rfl := Option.some.inj hc
        exact iff_of_true rfl rfl
      · simp only [next, State.goto, State.forked, if_true, Function.update_of_ne hp] at hc
        exact iff_of_false (hother hc) fun he => hp (Option.some.inj he).symm

theorem control_confirm {r : Wait} (h : Control s) (ht : s.pc t = .confirming) :
    Control (next s (.confirm t r)) := by
  have hbusy : (s.pc t).Busy := Or.inr (Or.inr ht)
  have hquiet : ¬ Starting s := by
    rintro ⟨u, hu⟩
    obtain rfl := h.one_busy u t (hu.imp_right Or.inl) hbusy
    rw [ht] at hu
    exact hu.elim nofun nofun
  have hnot : ∀ pc : Pc, pc ≠ .scanning ∧ pc ≠ .forking →
      Control ((s.reap r).goto t pc) := by
    intro pc hpc
    have hstart : ¬ Starting ((s.reap r).goto t pc) := by
      intro hs
      obtain ⟨u, -, hu⟩ := starting_goto hpc hs
      rw [reap_pc] at hu
      exact hquiet ⟨u, hu⟩
    refine ⟨one_busy_goto (by rw [reap_pc]; exact h.one_busy) ?_, fun hs => absurd hs hstart, ?_⟩
    · intro u hu _
      rw [reap_pc] at hu
      exact h.one_busy u t hu hbusy
    · intro _ p c hc
      show c.kind = .towa ↔ (s.reap r).pid = some p
      rw [reap_pid]
      exact h.named hquiet p c (reap_children.mp hc).1
  exact hnot _ (by split <;> simp)

theorem control_reply (h : Control s) (ht : s.pc t = .sending) :
    Control (next s (.reply t)) := by
  have hback : Starting (next s (.reply t)) → Starting s := by
    intro hs
    obtain ⟨u, -, hu⟩ := starting_goto (by simp) hs
    exact ⟨u, hu⟩
  have hforth : Starting s → Starting (next s (.reply t)) := by
    rintro ⟨u, hu⟩
    have hne : u ≠ t := by
      rintro rfl
      rw [ht] at hu
      exact hu.elim nofun nofun
    exact ⟨u, by simpa [next, State.goto, hne] using hu⟩
  refine ⟨one_busy_goto h.one_busy ?_, fun hs => h.gone (hback hs),
    fun hs => h.named (mt hforth hs)⟩
  rintro u - (hpc | hpc | hpc) <;> cases hpc

theorem control_exit {p : ℕ} (h : Control s) : Control (next s (.exit p)) := by
  refine ⟨h.one_busy, fun hs q hq => h.gone hs q (isTowa_exited.mp hq), fun hs q c hc => ?_⟩
  obtain ⟨c', hc', hkind⟩ := exited_children hc
  rw [← hkind]
  exact h.named hs q c' hc'

end Steps

structure Invariant (s : State ι) : Prop where
  table : Table s
  control : Control s

section Runs
variable {s : State ι}

/-- The towa process that `pid` names runs. -/
def Running (s : State ι) : Prop := ∃ p, s.pid = some p ∧ s.children p = some ⟨.towa, false⟩

/-- The last `fork` failed, there is no towa process, and a shell still runs. -/
def Masked (s : State ι) : Prop :=
  s.pid = none ∧ (∀ p, ¬ IsTowa s p) ∧ ∃ p, s.children p = some ⟨.shell, false⟩

/-- The test in `check`, or the one behind the `fork`, finds a process that has not exited. -/
def Passes (s : State ι) : Prop :=
  ∃ t, Enabled s (.check t .running) ∧ Alone s (.check t .running) ∨ Enabled s (.confirm t .running)

structure Supervised (s : State ι) : Prop where
  single : ∀ p q, TowaProcess s p → TowaProcess s q → p = q
  kept : ∀ p ∈ s.started, p ∈ s.waited ∨ IsTowa s p
  waited_once : s.waited.Nodup ∧ ∀ p ∈ s.waited, ¬ IsTowa s p
  passes : Passes s → Running s ∨ Masked s

theorem Invariant.single (h : Invariant s) {p q : ℕ} (hp : IsTowa s p) (hq : IsTowa s q) :
    p = q := by
  by_cases hs : Starting s
  · exact absurd hp (h.control.gone hs p)
  · obtain ⟨c, hc, hk⟩ := hp
    obtain ⟨c', hc', hk'⟩ := hq
    have hpid := (h.control.named hs p c hc).mp hk
    rw [(h.control.named hs q c' hc').mp hk'] at hpid
    exact (Option.some.inj hpid).symm

/-- There are no other towa processes than the children. -/
theorem Invariant.isTowa (h : Invariant s) {p : ℕ} (hp : TowaProcess s p) : IsTowa s p := by
  refine hp.resolve_right ?_
  rintro ⟨c, hc, -⟩
  rw [h.table.none_left p] at hc
  cases hc

theorem Invariant.passes (h : Invariant s) (hp : Passes s) : Running s ∨ Masked s := by
  obtain ⟨t, hp⟩ := hp
  have hwaits : Waits s .running := hp.elim (fun hp => hp.1.2.2) fun hp => hp.2.2
  have hquiet : ¬ Starting s := by
    rintro ⟨u, hu⟩
    rcases hp with ⟨-, halone⟩ | ⟨-, hpc, -⟩
    · exact halone u (hu.imp_right Or.inl)
    · obtain rfl := h.control.one_busy u t (hu.imp_right Or.inl) (Or.inr (Or.inr hpc))
      rw [hpc] at hu
      exact hu.elim nofun nofun
  have hnamed := h.control.named hquiet
  obtain ⟨⟨p, hasked, hne⟩, hrun⟩ := hwaits
  obtain ⟨⟨kind, exited⟩, hc⟩ := Option.ne_none_iff_exists'.mp hne
  obtain rfl : exited = false := hrun p _ hasked hc
  rcases hasked with hpid | hpid
  · have hnone : ∀ q, ¬ IsTowa s q := by
      rintro q ⟨c, hq, hk⟩
      have hq' := (hnamed q c hq).mp hk
      rw [hpid] at hq'
      cases hq'
    cases kind with
    | towa => exact absurd ⟨_, hc, rfl⟩ (hnone p)
    | shell => exact Or.inr ⟨hpid, hnone, p, hc⟩
  · obtain rfl : kind = .towa := (hnamed p _ hc).mpr hpid
    exact Or.inl ⟨p, hpid, hc⟩

variable [DecidableEq ι]

theorem invariant_initial (t : ι) (pid : Option ℕ) : Invariant (initial t pid) := by
  have hbusy : ∀ u, ((initial t pid).pc u).Busy → u = t := by
    intro u hu
    by_contra hne
    simp [initial, hne, Pc.Busy] at hu
  have hstart : Starting (initial t pid) := ⟨t, Or.inl (by simp [initial])⟩
  refine ⟨⟨nofun, nofun, List.nodup_nil, nofun, fun _ => rfl⟩,
    ⟨?_, ?_, fun hs => absurd hstart hs⟩⟩
  · intro u v hu hv
    rw [hbusy u hu, hbusy v hv]
  · rintro - p ⟨c, hc, -⟩
    cases hc

theorem invariant_next {a : Action ι} (he : Enabled s a) (ha : Alone s a) (h : Invariant s) :
    Invariant (next s a) := by
  cases a with
  | check t r => exact ⟨table_goto (table_reap h.table) t _, control_check h.control he.2.2 ha⟩
  | scan t archives =>
    exact ⟨table_goto (table_unpack h.table archives) t _, control_scan h.control h.table he.2⟩
  | fork t ok => exact ⟨table_goto (table_forked h.table ok) t _, control_fork h.control he.2⟩
  | confirm t r => exact ⟨table_goto (table_reap h.table) t _, control_confirm h.control he.2.1⟩
  | reply t => exact ⟨table_goto h.table t _, control_reply h.control he.2⟩
  | exit p => exact ⟨table_exited h.table p, control_exit h.control⟩
  | daemon => exact ha.elim

theorem reach_invariant (h : Reach manager Alone s) : Invariant s := by
  refine h.invariant ?_ fun s a he ha hi => invariant_next he ha hi
  rintro s ⟨t, pid, rfl⟩
  exact invariant_initial t pid

end Runs

end Supervision

/-- A towa process that has exited beside an archive's shell, and the next check. -/
def restart : List (Action Unit) :=
  [.scan () 1, .fork () true, .confirm () .running, .reply (), .exit 1, .check () (.reaped 1),
    .scan () 0, .fork () true, .confirm () .running]

theorem restart_runs (pid : Option ℕ) : manager.Runs Alone (initial () pid) restart := by
  simp [restart, System.Runs, manager, Enabled, Alive, Alone, Pc.Busy, Waits, Asked, initial, next,
    State.unpack, State.goto, State.forked, State.reap, State.exited, Function.update_apply]
  constructor <;> rintro p c rfl hc <;> simp at hc <;> simp [← hc]

/-- Two checks that both find the process gone. -/
def overlapping : List (Action Bool) :=
  [.scan true 0, .fork true true, .confirm true .running, .reply true, .exit 0,
    .check true (.reaped 0), .check false .error, .scan true 0, .fork true true, .scan false 0,
    .fork false true]

theorem overlapping_checks_start_two : ∃ s : State Bool, Reachable manager s ∧
    IsTowa s 1 ∧ IsTowa s 2 := by
  have hruns : manager.Runs (fun _ _ => True) (initial true none) overlapping := by
    simp [overlapping, System.Runs, manager, Enabled, Alive, Waits, Asked, initial, next,
      State.unpack, State.goto, State.forked, State.reap, State.exited, Function.update_apply]
  refine ⟨_, (Reach.start (M := manager) ⟨true, none, rfl⟩).run hruns, ?_⟩
  simp [overlapping, System.run, manager, IsTowa, initial, next, State.unpack, State.goto,
    State.forked, State.reap, State.exited, Function.update_apply]

/-- The daemon asks for a process that is not a child of its own. -/
def daemonized : List (Action Unit) :=
  [.scan () 0, .fork () true, .confirm () .running, .reply (), .daemon, .check () .error,
    .scan () 0, .fork () true]

theorem daemon_starts_second : ∃ s : State Unit, Reachable manager s ∧
    TowaProcess s 0 ∧ TowaProcess s 1 := by
  have hruns : manager.Runs (fun _ _ => True) (initial () none) daemonized := by
    simp [daemonized, System.Runs, manager, Enabled, Alive, Waits, Asked, initial, next,
      State.unpack, State.goto, State.forked, State.reap, State.daemonized, Function.update_apply]
  refine ⟨_, (Reach.start (M := manager) ⟨(), none, rfl⟩).run hruns, ?_⟩
  simp [daemonized, System.run, manager, TowaProcess, IsTowa, initial, next, State.unpack,
    State.goto, State.forked, State.reap, State.daemonized]

end TowaSupervision
