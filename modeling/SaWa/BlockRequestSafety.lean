import SaWa.BlockRequestProgress
import Mathlib.Data.List.Nodup

/-! When the handler never uses a null `current_req`, and each segment is transferred once. -/
namespace BlockRequestSafety

open GuardedRuns BlockRequestEngine BlockRequestProgress

/-! ### The null pointer -/

/-- No call of `blockdev_request` that will fetch a filesystem request runs between the locked
section that has left no current request and the test of it. -/
def Clear (s : Engine) : Action → Prop
  | .arrive _ q => s.handler = .testing → s.currentReq = none → ∀ r ∈ q, r.cmdType ≠ .fs
  | _ => True

/-- Work is pending only for a current request and only while no handler runs. -/
structure NullSafe (s : Engine) : Prop where
  pending_current : s.pending = true → s.currentReq ≠ none
  pending_idle : s.pending = true → s.handler = .idle
  busy : s.handler = .looping ∨ (∃ ret, s.handler = .ending ret) → s.currentReq ≠ none
  not_used : s.handler ≠ .nullUsed

theorem nullSafe_initial : NullSafe initial := by
  constructor <;> simp [initial]

section Step
variable {s t : Engine}

theorem nullSafe_arrive {rs q : List Request} (hs : NullSafe s) (hok : Clear s (.arrive rs q))
    (h : Called { s with queue := q, arrived := rs ++ s.arrived } t) : NullSafe t := by
  rcases hs with ⟨hcur, hidle, hbusy, hused⟩
  cases h with
  | busy hc => exact ⟨hcur, hidle, hbusy, hused⟩
  | nothing hc hf ht =>
    obtain ⟨-, hp, hh, -⟩ := hf.unchanged
    simp only at hc hp hh
    constructor
    · intro hpt
      exact absurd hc (hcur (hp ▸ hpt))
    · intro hpt
      exact absurd hc (hcur (hp ▸ hpt))
    · intro hb
      exact absurd hc (hbusy (hh ▸ hb))
    · exact hh ▸ hused
  | scheduled hc hf ht =>
    obtain ⟨-, -, hh, -⟩ := hf.unchanged
    simp only at hc hh
    have hstate : s.handler = .idle := by
      cases hm : s.handler with
      | idle => rfl
      | looping => exact absurd hc (hbusy (Or.inl hm))
      | ending ret => exact absurd hc (hbusy (Or.inr ⟨ret, hm⟩))
      | nullUsed => exact absurd hm hused
      | testing =>
        -- the fetch found a filesystem request in `q`, which the guard rules out here
        have hnone := hok hm hc
        cases hf with
        | empty l hl hq => exact absurd rfl ht
        | found l r q' hl hq hr =>
          have hq' : q = l ++ r :: q' := hq
          exact absurd hr (hnone r (by simp [hq']))
    constructor
    · intro _
      exact ht
    · intro _
      exact hh.trans hstate
    · intro _
      exact ht
    · intro hu
      rw [hh, hstate] at hu
      cases hu

theorem nullSafe_endSegment {ret : ℤ} (hi : Invariant s) (hs : NullSafe s)
    (hh : s.handler = .ending ret) : NullSafe (endSegment ret s) := by
  have hpend : s.pending ≠ true := by
    intro hp
    rw [hs.pending_idle hp] at hh
    cases hh
  have hcur := hs.busy (Or.inr ⟨ret, hh⟩)
  obtain ⟨r, hr⟩ := Option.ne_none_iff_exists'.mp hcur
  have ht : Ended ret r s (endSegment ret s) := endSegment_ended (hi.queue_set hcur) hr
  generalize endSegment ret s = t at ht
  have hrest : t.pending = s.pending ∧ t.handler = .testing := by
    cases ht with
    | more h => exact ⟨rfl, rfl⟩
    | last h hf => exact ⟨hf.unchanged.2.1, hf.unchanged.2.2.1⟩
  obtain ⟨hp, hh'⟩ := hrest
  constructor
  · intro hpt
    exact absurd (hp ▸ hpt) hpend
  · intro hpt
    exact absurd (hp ▸ hpt) hpend
  · rintro (hl | ⟨ret', hl⟩)
    · rw [hh'] at hl
      cases hl
    · rw [hh'] at hl
      cases hl
  · rw [hh']
    simp

theorem nullSafe_next (a : Action) (he : Enabled s a) (hok : Clear s a) (hi : Invariant s)
    (hs : NullSafe s) : NullSafe (next s a) := by
  cases a with
  | arrive rs q => exact nullSafe_arrive hs hok (blockdevRequest_called _)
  | start =>
    have hcur := hs.pending_current he.1
    constructor
    · intro hp
      cases hp
    · intro hp
      cases hp
    · intro _
      exact hcur
    · simp [next]
  | transfer ret =>
    have hcur := hs.busy (Or.inl he)
    have hpend : s.pending ≠ true := by
      intro hp
      have hidle := hs.pending_idle hp
      rw [Enabled, hidle] at he
      cases he
    obtain ⟨r, hr⟩ := Option.ne_none_iff_exists'.mp hcur
    constructor <;> simp [next, transfer, hr, hpend]
  | endSegment =>
    obtain ⟨ret, hret⟩ := he
    have hn : next s .endSegment = endSegment ret s := by simp [next, hret]
    rw [hn]
    exact nullSafe_endSegment hi hs hret
  | test =>
    have hpend : s.pending ≠ true := by
      intro hp
      have hidle := hs.pending_idle hp
      rw [Enabled, hidle] at he
      cases he
    by_cases hc : s.currentReq = none
    · constructor <;> simp [next, test, hc, hpend]
    · constructor <;> simp [next, test, hc, hpend]

end Step

theorem reach_nullSafe {s : Engine} (h : Reach engine Clear s) : NullSafe s := by
  have hboth : Invariant s ∧ NullSafe s := by
    apply h.invariant
    · rintro s rfl
      exact ⟨invariant_initial, nullSafe_initial⟩
    · rintro s a he hok ⟨hi, hs⟩
      exact ⟨invariant_next a he hi, nullSafe_next a he hok hi hs⟩
  exact hboth.2

/-! ### Each segment once -/

def isTransfer (nb i : ℕ) : Event → Bool
  | .transferred n j _ _ => n = nb ∧ j = i
  | _ => false

def Event.nb : Event → ℕ
  | .transferred n _ _ _ => n
  | .ended n _ _ => n
  | .endedAll n _ => n

/-- Wherever the log ends a segment of a filesystem request, it was transferred exactly once
before, with its own data, and is not transferred again. -/
def ExactlyOnce (arrived : List Request) (log : List Event) : Prop :=
  ∀ r ∈ arrived, r.cmdType = .fs → ∀ i seg, r.segments[i]? = some seg →
    ∀ newer older ret, log = newer ++ .ended r.nb i ret :: older →
      older.filter (isTransfer r.nb i) = [.transferred r.nb i seg r.dataDir] ∧
        newer.filter (isTransfer r.nb i) = []

section Log
variable {arrived rs : List Request} {log : List Event} {e : Event}

theorem ExactlyOnce.cons (h : ExactlyOnce arrived log)
    (hend : ∀ r ∈ arrived, ∀ i seg ret, r.segments[i]? = some seg → e = .ended r.nb i ret →
      log.filter (isTransfer r.nb i) = [.transferred r.nb i seg r.dataDir])
    (htr : ∀ nb i, isTransfer nb i e = true → ∀ ret, .ended nb i ret ∉ log) :
    ExactlyOnce arrived (e :: log) := by
  intro r hr hfs i seg hseg newer older ret heq
  cases newer with
  | nil =>
    obtain ⟨rfl, rfl⟩ := List.cons.inj heq
    exact ⟨hend r hr i seg ret hseg rfl, rfl⟩
  | cons e' newer =>
    obtain ⟨rfl, hlog⟩ := List.cons.inj heq
    obtain ⟨hold, hnew⟩ := h r hr hfs i seg hseg newer older ret hlog
    refine ⟨hold, ?_⟩
    have hne : ¬ isTransfer r.nb i e = true := by
      intro ht
      exact htr r.nb i ht ret (by simp [hlog])
    rw [List.filter_cons_of_neg hne, hnew]

theorem ExactlyOnce.skip (h : ExactlyOnce arrived log) (l : List Request) :
    ExactlyOnce arrived (skip l ++ log) := by
  have haux : ∀ es : List Event, (∀ e ∈ es, ∃ n err, e = .endedAll n err) →
      ExactlyOnce arrived (es ++ log) := by
    intro es
    induction es with
    | nil =>
      intro _
      exact h
    | cons e es ih =>
      intro hes
      obtain ⟨n, err, rfl⟩ := hes _ List.mem_cons_self
      apply (ih fun e he => hes e (List.mem_cons_of_mem _ he)).cons
      · intro r _ i seg ret _ heq
        cases heq
      · intro nb i ht
        cases ht
  apply haux
  intro e he
  simp only [BlockRequestEngine.skip, List.mem_reverse, List.mem_map] at he
  obtain ⟨r, -, rfl⟩ := he
  exact ⟨_, _, rfl⟩

theorem ExactlyOnce.arrive (h : ExactlyOnce arrived log)
    (hnew : ∀ r ∈ rs, ∀ e ∈ log, Event.nb e ≠ r.nb) : ExactlyOnce (rs ++ arrived) log := by
  intro r hr hfs i seg hseg newer older ret hlog
  rcases List.mem_append.mp hr with hr | hr
  · exact absurd rfl (hnew r hr (.ended r.nb i ret) (by simp [hlog]))
  · exact h r hr hfs i seg hseg newer older ret hlog

end Log

/-- `r` is the request `r₀` at a later segment. -/
def SameRequest (r₀ r : Request) : Prop :=
  r₀.nb = r.nb ∧ r₀.dataDir = r.dataDir ∧ r₀.segments = r.segments

/-- What the log says about the current request: its segments from the current one on have not
been ended, the later ones have not been transferred, and the current one just once if the
handler is about to end it, and not at all otherwise. -/
structure CurrentLog (s : Engine) (r : Request) : Prop where
  not_ended : ∀ i, r.cur ≤ i → ∀ ret, .ended r.nb i ret ∉ s.log
  later : ∀ i, r.cur < i → s.log.filter (isTransfer r.nb i) = []
  before : (∀ ret, s.handler ≠ .ending ret) → s.log.filter (isTransfer r.nb r.cur) = []
  ending : ∀ ret, s.handler = .ending ret →
    s.log.filter (isTransfer r.nb r.cur) = [.transferred r.nb r.cur r.segment r.dataDir]

structure Tracked (s : Engine) : Prop where
  arrived_nodup : (s.arrived.map Request.nb).Nodup
  live_nodup : ((s.currentReq.toList ++ s.queue).map Request.nb).Nodup
  queued : ∀ r ∈ s.queue, r.cur = 0 ∧ r ∈ s.arrived ∧ ∀ e ∈ s.log, Event.nb e ≠ r.nb
  current : ∀ r, s.currentReq = some r →
    (∃ r₀ ∈ s.arrived, SameRequest r₀ r) ∧ CurrentLog s r
  logged : ∀ e ∈ s.log, ∃ r ∈ s.arrived, r.nb = Event.nb e
  once : ExactlyOnce s.arrived s.log
  ending_current : ∀ ret, s.handler = .ending ret → s.currentReq ≠ none

theorem tracked_initial : Tracked initial := by
  constructor <;> simp [initial, ExactlyOnce]

theorem filter_eq_nil {log : List Event} {nb i : ℕ} (h : ∀ e ∈ log, Event.nb e ≠ nb) :
    log.filter (isTransfer nb i) = [] := by
  apply List.filter_eq_nil_iff.mpr
  intro e he ht
  cases e with
  | transferred n j seg w =>
    simp only [isTransfer, decide_eq_true_eq] at ht
    exact h _ he ht.1
  | ended n j ret => cases ht
  | endedAll n err => cases ht

section Step
variable {s t : Engine} {r : Request}

theorem live_ne (hs : Tracked s) (hc : s.currentReq = some r) {r' : Request} (hr' : r' ∈ s.queue) :
    r.nb ≠ r'.nb := by
  have hnd := hs.live_nodup
  simp only [hc, Option.toList_some, List.cons_append, List.nil_append, List.map_cons,
    List.nodup_cons] at hnd
  intro heq
  exact hnd.1 (List.mem_map.mpr ⟨r', hr', heq.symm⟩)

/-- What happens to the current request says nothing about the queued ones. -/
theorem queued_cons (hs : Tracked s) (hc : s.currentReq = some r) {e : Event}
    (he : Event.nb e = r.nb) : ∀ r' ∈ s.queue, r'.cur = 0 ∧ r' ∈ s.arrived ∧
      ∀ e' ∈ e :: s.log, Event.nb e' ≠ r'.nb := by
  intro r' hr'
  obtain ⟨hzero, harr, hlog⟩ := hs.queued r' hr'
  exact ⟨hzero, harr, List.forall_mem_cons.mpr ⟨he ▸ live_ne hs hc hr', hlog⟩⟩

theorem logged_cons (hs : Tracked s) (hc : s.currentReq = some r) {e : Event}
    (he : Event.nb e = r.nb) : ∀ e' ∈ e :: s.log, ∃ r' ∈ s.arrived, r'.nb = Event.nb e' := by
  obtain ⟨⟨r₀, hr₀, hsame⟩, -⟩ := hs.current r hc
  exact List.forall_mem_cons.mpr ⟨⟨r₀, hr₀, hsame.1.trans he.symm⟩, hs.logged⟩

/-- Whether the work is scheduled and whether the queue is known play no part. -/
theorem Tracked.unread (hs : Tracked s) (known pending : Bool) :
    Tracked { s with theQueue := known, pending := pending } := by
  refine ⟨hs.1, hs.2, hs.3, ?_, hs.5, hs.6, hs.7⟩
  intro r hr
  obtain ⟨hex, hcur⟩ := hs.current r hr
  exact ⟨hex, hcur.1, hcur.2, hcur.3, hcur.4⟩

/-- The handler moves on, but not from or to the end of a segment. -/
theorem Tracked.handler_moved (hs : Tracked s) {h : Handler}
    (hfrom : ∀ ret, s.handler ≠ .ending ret) (hto : ∀ ret, h ≠ .ending ret) :
    Tracked { s with handler := h } := by
  refine ⟨hs.1, hs.2, hs.3, ?_, hs.5, hs.6, fun ret hret => absurd hret (hto ret)⟩
  intro r hr
  obtain ⟨hex, hcur⟩ := hs.current r hr
  exact ⟨hex, hcur.1, hcur.2, fun _ => hcur.3 hfrom, fun ret hret => absurd hret (hto ret)⟩

theorem mem_skip {l : List Request} {e : Event} (he : e ∈ skip l) : ∃ r ∈ l, Event.nb e = r.nb := by
  simp only [skip, List.mem_reverse, List.mem_map] at he
  obtain ⟨r, hr, rfl⟩ := he
  exact ⟨r, hr, rfl⟩

theorem logged_skip (hs : Tracked s) {l : List Request} (hl : ∀ r ∈ l, r ∈ s.queue) :
    ∀ e ∈ skip l ++ s.log, ∃ r ∈ s.arrived, r.nb = Event.nb e := by
  intro e he
  rcases List.mem_append.mp he with he | he
  · obtain ⟨r, hr, hnb⟩ := mem_skip he
    exact ⟨r, (hs.queued r (hl r hr)).2.1, hnb.symm⟩
  · exact hs.logged e he

/-- Nothing has happened yet to the requests behind those that are skipped. -/
theorem apart_skip (hs : Tracked s) {l m : List Request} (hq : s.queue = l ++ m)
    (hnd : (s.queue.map Request.nb).Nodup) :
    ∀ r ∈ m, ∀ e ∈ skip l ++ s.log, Event.nb e ≠ r.nb := by
  rw [hq, List.map_append] at hnd
  intro r hr e he heq
  rcases List.mem_append.mp he with he | he
  · obtain ⟨r', hr', hnb⟩ := mem_skip he
    exact (List.nodup_append.mp hnd).2.2 r'.nb (List.mem_map_of_mem hr') r.nb
      (List.mem_map_of_mem hr) (hnb.symm.trans heq)
  · have hqueued : r ∈ s.queue := hq ▸ List.mem_append_right l hr
    exact (hs.queued r hqueued).2.2 e he heq

theorem tracked_fetched (hs : Tracked s) (hc : s.currentReq = none)
    (hh : ∀ ret, s.handler ≠ .ending ret) (h : Fetched s t) : Tracked t := by
  have hlive : (s.queue.map Request.nb).Nodup := by simpa [hc] using hs.live_nodup
  cases h with
  | empty l hl hq =>
    constructor
    · exact hs.arrived_nodup
    · simp
    · intro r hr
      cases hr
    · intro r hr
      cases hr
    · exact logged_skip hs fun r hr => hq ▸ hr
    · exact hs.once.skip l
    · intro ret hret
      exact absurd hret (hh ret)
  | found l r q hl hq hr =>
    have hapart := apart_skip hs hq hlive
    have hself := hs.queued r (by simp [hq])
    constructor
    · exact hs.arrived_nodup
    · rw [hq, List.map_append] at hlive
      simpa using (List.nodup_append.mp hlive).2.1
    · intro r' hr'
      have hold := hs.queued r' (by simp [hq, hr'])
      exact ⟨hold.1, hold.2.1, hapart r' (List.mem_cons_of_mem r hr')⟩
    · intro r' hr'
      obtain rfl : r = r' := Option.some.inj hr'
      refine ⟨⟨r, hself.2.1, rfl, rfl, rfl⟩, ?_, ?_, ?_, ?_⟩
      · intro i _ ret hmem
        exact hapart r List.mem_cons_self _ hmem rfl
      · intro i _
        exact filter_eq_nil (hapart r List.mem_cons_self)
      · intro _
        exact filter_eq_nil (hapart r List.mem_cons_self)
      · intro ret hret
        exact absurd hret (hh ret)
    · exact logged_skip hs fun r' hr' => by simp [hq, hr']
    · exact hs.once.skip l
    · intro ret hret
      exact absurd hret (hh ret)

theorem tracked_queue {rs q : List Request} (hs : Tracked s) (hf : Fresh s rs)
    (hq : q.Perm (s.queue ++ rs)) : Tracked { s with queue := q, arrived := rs ++ s.arrived } := by
  obtain ⟨hnd, hzero⟩ := hf
  rw [List.map_append] at hnd
  have hapart : ∀ r ∈ rs, ∀ r' ∈ s.arrived, r.nb ≠ r'.nb := by
    intro r hr r' hr'
    exact (List.nodup_append.mp hnd).2.2 r.nb (List.mem_map_of_mem hr) r'.nb
      (List.mem_map_of_mem hr')
  have hlog : ∀ r ∈ rs, ∀ e ∈ s.log, Event.nb e ≠ r.nb := by
    intro r hr e he heq
    obtain ⟨r', hr', hnb⟩ := hs.logged e he
    exact hapart r hr r' hr' (heq.symm.trans hnb.symm)
  constructor
  · simpa using hnd
  · have hperm : ((s.currentReq.toList ++ q).map Request.nb).Perm
        ((s.currentReq.toList ++ s.queue).map Request.nb ++ rs.map Request.nb) := by
      rw [← List.map_append, List.append_assoc]
      exact (hq.append_left _).map _
    apply hperm.nodup_iff.mpr
    apply List.nodup_append.mpr
    refine ⟨hs.live_nodup, (List.nodup_append.mp hnd).1, ?_⟩
    intro n hn m hm
    obtain ⟨r, hr, rfl⟩ := List.mem_map.mp hn
    obtain ⟨r', hr', rfl⟩ := List.mem_map.mp hm
    rcases List.mem_append.mp hr with hr | hr
    · obtain ⟨⟨r₀, hr₀, hsame⟩, -⟩ := hs.current r (by simpa using hr)
      exact fun heq => hapart r' hr' r₀ hr₀ (heq.symm.trans hsame.1.symm)
    · exact fun heq => hapart r' hr' r (hs.queued r hr).2.1 heq.symm
  · intro r hr
    rcases List.mem_append.mp (hq.mem_iff.mp hr) with hr | hr
    · have hold := hs.queued r hr
      exact ⟨hold.1, List.mem_append_right rs hold.2.1, hold.2.2⟩
    · exact ⟨hzero r hr, List.mem_append_left _ hr, hlog r hr⟩
  · intro r hr
    obtain ⟨⟨r₀, hr₀, hsame⟩, hcur⟩ := hs.current r hr
    exact ⟨⟨r₀, List.mem_append_right rs hr₀, hsame⟩, hcur.1, hcur.2, hcur.3, hcur.4⟩
  · intro e he
    obtain ⟨r, hr, hnb⟩ := hs.logged e he
    exact ⟨r, List.mem_append_right rs hr, hnb⟩
  · exact hs.once.arrive hlog
  · exact hs.ending_current

theorem tracked_called (hs : Tracked s) (h : Called s t) : Tracked t := by
  have hset : Tracked { s with theQueue := true } := hs.unread true s.pending
  cases h with
  | busy hc => exact hset
  | nothing hc hf ht =>
    exact tracked_fetched hset hc (fun ret hret => hs.ending_current ret hret hc) hf
  | @scheduled hc u hf ht =>
    have hu := tracked_fetched hset hc (fun ret hret => hs.ending_current ret hret hc) hf
    exact hu.unread u.theQueue true

theorem tracked_transfer {ret : ℤ} (hs : Tracked s) (hh : s.handler = .looping) :
    Tracked (transfer ret s) := by
  cases hc : s.currentReq with
  | none =>
    have ht : transfer ret s = { s with handler := .nullUsed } := by simp [transfer, hc]
    rw [ht]
    exact hs.handler_moved (by simp [hh]) (by simp)
  | some r =>
    obtain ⟨⟨r₀, hr₀, hsame⟩, hnot, hlater, hbefore, -⟩ := hs.current r hc
    have hfirst := hbefore (by simp [hh])
    have ht : transfer ret s = { s with
        handler := .ending ret
        log := .transferred r.nb r.cur r.segment r.dataDir :: s.log } := by
      simp [transfer, hc]
    rw [ht]
    constructor
    · exact hs.arrived_nodup
    · exact hs.live_nodup
    · exact queued_cons hs hc rfl
    · intro r' hr'
      obtain rfl : r = r' := Option.some.inj (hc.symm.trans hr')
      refine ⟨⟨r₀, hr₀, hsame⟩, ?_, ?_, ?_, ?_⟩
      · intro i hi ret' hmem
        rcases List.mem_cons.mp hmem with heq | hmem
        · cases heq
        · exact hnot i hi ret' hmem
      · intro i hi
        have hne : ¬ r.cur = i := by omega
        simpa [isTransfer, hne] using hlater i hi
      · intro h
        exact absurd rfl (h ret)
      · intro _ _
        simpa [isTransfer] using hfirst
    · exact logged_cons hs hc rfl
    · apply hs.once.cons
      · intro r' _ i seg ret' _ heq
        cases heq
      · intro nb i hti ret'
        simp only [isTransfer, decide_eq_true_eq] at hti
        obtain ⟨rfl, rfl⟩ := hti
        exact hnot r.cur (Nat.le_refl _) ret'
    · intro _ _
      simp [hc]

/-- The segment that was just transferred is ended, by whoever's turn comes next. -/
theorem once_ended {ret ret' : ℤ} (hs : Tracked s) (hc : s.currentReq = some r)
    (hh : s.handler = .ending ret) : ExactlyOnce s.arrived (.ended r.nb r.cur ret' :: s.log) := by
  obtain ⟨⟨r₀, hr₀, hsame⟩, -, -, -, hending⟩ := hs.current r hc
  apply hs.once.cons
  · intro r' hr' i seg ret'' hseg heq
    simp only [Event.ended.injEq] at heq
    obtain ⟨hnb, rfl, -⟩ := heq
    have hr : r' = r₀ :=
      List.inj_on_of_nodup_map hs.arrived_nodup hr' hr₀ (hnb.symm.trans hsame.1.symm)
    rw [hr, hsame.2.2, List.getElem?_eq_getElem r.cur_lt] at hseg
    have hsegment : r.segment = seg := Option.some.inj hseg
    rw [← hnb, hr, hsame.2.1, hending ret hh, hsegment]
  · intro nb i hti
    cases hti

/-- The current request goes on with its next segment. -/
theorem tracked_more {ret : ℤ} (hs : Tracked s) (hc : s.currentReq = some r)
    (hh : s.handler = .ending ret) (hmore : r.cur + 1 < r.segments.length) :
    Tracked { s with
      handler := .testing
      log := .ended r.nb r.cur ret :: s.log
      currentReq := some { r with cur := r.cur + 1, cur_lt := hmore } } := by
  obtain ⟨hex, hnot, hlater, -, -⟩ := hs.current r hc
  constructor
  · exact hs.arrived_nodup
  · simpa [hc] using hs.live_nodup
  · exact queued_cons hs hc rfl
  · intro r' hr'
    obtain rfl := Option.some.inj hr'
    refine ⟨hex, ?_, ?_, ?_, ?_⟩
    · intro i hi ret' hmem
      simp only at hi hmem
      rcases List.mem_cons.mp hmem with heq | hmem
      · simp only [Event.ended.injEq] at heq
        omega
      · exact hnot i (by omega) ret' hmem
    · intro i hi
      simp only at hi
      simpa [isTransfer] using hlater i (by omega)
    · intro _
      simpa [isTransfer] using hlater (r.cur + 1) (by omega)
    · intro ret' hret
      cases hret
  · exact logged_cons hs hc rfl
  · exact once_ended hs hc hh
  · intro ret' hret
    cases hret

/-- The current request was at its last segment. -/
theorem tracked_last {ret : ℤ} (hs : Tracked s) (hc : s.currentReq = some r)
    (hh : s.handler = .ending ret) :
    Tracked { s with
      handler := .testing
      log := .ended r.nb r.cur ret :: s.log
      currentReq := none } := by
  constructor
  · exact hs.arrived_nodup
  · have hnd := hs.live_nodup
    rw [List.map_append] at hnd
    exact (List.nodup_append.mp hnd).2.1
  · exact queued_cons hs hc rfl
  · intro r' hr'
    cases hr'
  · exact logged_cons hs hc rfl
  · exact once_ended hs hc hh
  · intro ret' hret
    cases hret

theorem tracked_ended {ret : ℤ} (hs : Tracked s) (hc : s.currentReq = some r)
    (hh : s.handler = .ending ret) (h : Ended ret r s t) : Tracked t := by
  cases h with
  | more hmore => exact tracked_more hs hc hh hmore
  | last hlast hf =>
    have hdone := tracked_last hs hc hh
    -- the fetch does not read the current request
    have hf' : Fetched { s with
        handler := .testing
        log := .ended r.nb r.cur ret :: s.log
        currentReq := none } t := by
      cases hf with
      | empty l hl hq => exact .empty l hl hq
      | found l r' q hl hq hr' => exact .found l r' q hl hq hr'
    apply tracked_fetched hdone rfl _ hf'
    intro ret' hret
    cases hret

theorem tracked_next (a : Action) (he : Enabled s a) (hi : Invariant s) (hs : Tracked s) :
    Tracked (next s a) := by
  cases a with
  | arrive rs q => exact tracked_called (tracked_queue hs he.1 he.2) (blockdevRequest_called _)
  | start =>
    have hmoved : Tracked { s with handler := .looping } :=
      hs.handler_moved (by simp [he.2]) (by simp)
    exact hmoved.unread s.theQueue false
  | transfer ret => exact tracked_transfer hs he
  | endSegment =>
    obtain ⟨ret, hret⟩ := he
    have hn : next s .endSegment = endSegment ret s := by simp [next, hret]
    rw [hn]
    have hcur := hs.ending_current ret hret
    obtain ⟨r, hr⟩ := Option.ne_none_iff_exists'.mp hcur
    exact tracked_ended hs hr hret (endSegment_ended (hi.queue_set hcur) hr)
  | test =>
    have hfrom : s.handler = .testing := he
    apply hs.handler_moved (by simp [hfrom])
    intro ret
    split_ifs <;> simp

end Step

/-- The order of transfers and ends is right in every run, also in those that use the null
pointer later. -/
theorem reach_tracked {s : Engine} {ok : Engine → Action → Prop} (h : Reach engine ok s) :
    Tracked s := by
  have hboth : Invariant s ∧ Tracked s := by
    apply h.invariant
    · rintro s rfl
      exact ⟨invariant_initial, tracked_initial⟩
    · rintro s a he _ ⟨hi, hs⟩
      exact ⟨invariant_next a he hi, tracked_next a he hi hs⟩
  exact hboth.2

theorem clear_runs_transfer_once {s : Engine} (h : Reach engine Clear s) :
    s.handler ≠ .nullUsed ∧ ExactlyOnce s.arrived s.log :=
  ⟨(reach_nullSafe h).not_used, (reach_tracked h).once⟩

/-- Two requests, the second of them while the first is being transferred. -/
theorem clear_run_two_requests :
    let s := engine.run initial
      [.arrive [oneSegment 0] [oneSegment 0], .start, .arrive [oneSegment 1] [oneSegment 1],
        .transfer 0, .endSegment, .test, .transfer 0, .endSegment, .test]
    s.handler = .idle ∧ s.log.length = 4 ∧ s.handler ≠ .nullUsed ∧ ExactlyOnce s.arrived s.log := by
  refine ⟨by decide, by decide, clear_runs_transfer_once ?_⟩
  apply Reach.run (.start rfl)
  exact ⟨⟨by decide, .refl _⟩, by simp [Clear, initial], ⟨rfl, rfl⟩, trivial,
    ⟨by decide, .refl _⟩, fun h => absurd h (by decide), rfl, trivial, ⟨0, rfl⟩, trivial, rfl,
    trivial, rfl, trivial, ⟨0, rfl⟩, trivial, rfl, trivial, trivial⟩

/-- The second request arrives after the locked section that found the queue empty and before
the test: the running handler takes it, and the work scheduled for it starts on a null pointer. -/
theorem arrival_before_test_uses_null :
    ¬ ∀ s, Reachable engine s → s.handler ≠ .nullUsed ∧ ExactlyOnce s.arrived s.log := by
  intro hall
  have hrun : Reachable engine (engine.run initial
      [.arrive [oneSegment 0] [oneSegment 0], .start, .transfer 0, .endSegment,
        .arrive [oneSegment 1] [oneSegment 1], .test, .transfer 0, .endSegment, .test,
        .start, .transfer 0]) := by
    apply Reach.run (.start rfl)
    exact ⟨⟨by decide, .refl _⟩, trivial, ⟨rfl, rfl⟩, trivial, rfl, trivial, ⟨0, rfl⟩, trivial,
      ⟨by decide, .refl _⟩, trivial, rfl, trivial, rfl, trivial, ⟨0, rfl⟩, trivial, rfl, trivial,
      ⟨rfl, rfl⟩, trivial, rfl, trivial, trivial⟩
  exact (hall _ hrun).1 rfl

/-! ### The guard leaves nothing out -/

/-- Segments still to be ended. -/
def left (s : Engine) : ℕ :=
  (s.currentReq.elim 0 fun r => r.segments.length - r.cur) +
    (s.queue.map fun r => r.segments.length).sum

theorem left_fetched {s t : Engine} (h : Fetched s t) (hq : ∀ r ∈ s.queue, r.cur = 0) :
    left t ≤ (s.queue.map fun r => r.segments.length).sum := by
  cases h with
  | empty l hl heq => simp [left]
  | found l r q hl heq hr => simp [left, heq, hq r (by simp [heq])]

theorem left_ended {s t : Engine} {r : Request} {ret : ℤ} (hc : s.currentReq = some r)
    (hq : ∀ r ∈ s.queue, r.cur = 0) (h : Ended ret r s t) : left t < left s := by
  have hlt := r.cur_lt
  cases h with
  | more h =>
    simp only [left, hc, Option.elim_some]
    omega
  | last h hf =>
    have hle := left_fetched hf hq
    simp only [left, hc, Option.elim_some] at hle ⊢
    omega

/-- One transfer with its end brings the handler to its test, with less left to do. -/
theorem segment_served {s : Engine} (h : Reachable engine s) (hh : s.handler = .looping)
    (hc : s.currentReq ≠ none) :
    engine.Runs (fun _ _ => True) s [.transfer 0, .endSegment] ∧
      (engine.run s [.transfer 0, .endSegment]).handler = .testing ∧
      (engine.run s [.transfer 0, .endSegment]).pending = s.pending ∧
      left (engine.run s [.transfer 0, .endSegment]) < left s := by
  obtain ⟨r, hr⟩ := Option.ne_none_iff_exists'.mp hc
  have hset := (reachable_invariant h).queue_set hc
  have hqueue : ∀ r ∈ s.queue, r.cur = 0 := fun r hr => ((reach_tracked h).queued r hr).1
  have hmid : next s (.transfer 0) = { s with
      handler := .ending 0
      log := .transferred r.nb r.cur r.segment r.dataDir :: s.log } := by
    simp [next, transfer, hr]
  have hrun : engine.run s [.transfer 0, .endSegment] = endSegment 0 { s with
      handler := .ending 0
      log := .transferred r.nb r.cur r.segment r.dataDir :: s.log } := by
    change next (next s (.transfer 0)) .endSegment = _
    rw [hmid]
    rfl
  have hruns : engine.Runs (fun _ _ => True) s [.transfer 0, .endSegment] := by
    refine ⟨hh, trivial, ⟨0, ?_⟩, trivial, trivial⟩
    exact congrArg Engine.handler hmid
  have hend : Ended 0 r { s with
      handler := .ending 0
      log := .transferred r.nb r.cur r.segment r.dataDir :: s.log } _ := endSegment_ended hset hr
  rw [← hrun] at hend
  have hlt : left (engine.run s [.transfer 0, .endSegment]) < left s :=
    left_ended (s := { s with
      handler := .ending 0
      log := .transferred r.nb r.cur r.segment r.dataDir :: s.log }) hr hqueue hend
  refine ⟨hruns, ?_, ?_, hlt⟩
  · generalize engine.run s [.transfer 0, .endSegment] = t at hend
    cases hend with
    | more h => rfl
    | last h hf => exact hf.unchanged.2.2.1
  · generalize engine.run s [.transfer 0, .endSegment] = t at hend
    cases hend with
    | more h => rfl
    | last h hf => exact hf.unchanged.2.1

/-- A handler that serves a request while its work item is pending again ends in the null
pointer: it serves the whole queue first, and the pending run finds nothing. -/
theorem pending_behind_handler {s : Engine} (h : Reachable engine s) (hp : s.pending = true)
    (hh : s.handler = .looping) (hc : s.currentReq ≠ none) :
    ∃ es, engine.Runs (fun _ _ => True) s es ∧ (engine.run s es).handler = .nullUsed := by
  induction hn : left s using Nat.strongRecOn generalizing s with
  | _ n ih =>
    obtain ⟨hruns, ht, hpt, hlt⟩ := segment_served h hh hc
    have hreach := h.run hruns
    have hcont : ∃ es, engine.Runs (fun _ _ => True) (engine.run s [.transfer 0, .endSegment]) es ∧
        (engine.run (engine.run s [.transfer 0, .endSegment]) es).handler = .nullUsed := by
      generalize engine.run s [.transfer 0, .endSegment] = t at ht hpt hlt hreach
      have hp' := hpt.trans hp
      by_cases hct : t.currentReq = none
      · refine ⟨[.test, .start, .transfer 0],
          ⟨ht, trivial, ⟨hp', ?_⟩, trivial, rfl, trivial, trivial⟩, ?_⟩
        · simp [engine, next, test, hct]
        · simp [System.run, engine, next, test, transfer, hct]
      · have htest : Reachable engine (test t) :=
          Reach.next (M := engine) .test hreach ht trivial
        obtain ⟨es, hes, hnull⟩ := ih _ (hn ▸ hlt) htest hp' (by simp [test, hct]) hct rfl
        exact ⟨.test :: es, ⟨ht, trivial, hes⟩, hnull⟩
    obtain ⟨es, hes, hnull⟩ := hcont
    exact ⟨.transfer 0 :: .endSegment :: es, ⟨hruns.1, trivial, hruns.2.2.1, trivial, hes⟩, hnull⟩

/-- Every call that the guard forbids can be followed by steps that use the null pointer. -/
theorem unclear_call_reaches_null {s : Engine} {a : Action} (h : Reachable engine s)
    (he : Enabled s a) (hnot : ¬ Clear s a) :
    ∃ es, engine.Runs (fun _ _ => True) (next s a) es ∧
      (engine.run (next s a) es).handler = .nullUsed := by
  cases a with
  | arrive rs q =>
    simp only [Clear, not_forall, not_not] at hnot
    obtain ⟨hh, hc, r, hr, hfs⟩ := hnot
    have hreach : Reachable engine (next s (.arrive rs q)) :=
      Reach.next (M := engine) (.arrive rs q) h he trivial
    have hcalled : Called { s with queue := q, arrived := rs ++ s.arrived }
        (next s (.arrive rs q)) := blockdevRequest_called _
    generalize next s (.arrive rs q) = t at hcalled hreach
    have hfound : t.handler = .testing ∧ t.pending = true ∧ t.currentReq ≠ none := by
      cases hcalled with
      | busy hb => exact absurd hc hb
      | nothing _ hf ht =>
        cases hf with
        | empty l hl hq =>
          have hq' : q = l := hq
          exact absurd hfs (hl r (hq' ▸ hr))
        | found l r' q' hl hq hr' => cases ht
      | scheduled _ hf ht => exact ⟨hf.unchanged.2.2.1.trans hh, rfl, ht⟩
    obtain ⟨hht, hp, hct⟩ := hfound
    have htest : Reachable engine (test t) :=
      Reach.next (M := engine) .test hreach hht trivial
    obtain ⟨es, hes, hnull⟩ := pending_behind_handler htest hp (by simp [test, hct]) hct
    exact ⟨.test :: es, ⟨hht, trivial, hes⟩, hnull⟩
  | start => exact absurd trivial hnot
  | transfer ret => exact absurd trivial hnot
  | endSegment => exact absurd trivial hnot
  | test => exact absurd trivial hnot

end BlockRequestSafety
