import SaWa.ThreadCounters
import Mathlib.Data.List.Perm.Subperm
import Mathlib.Order.Bounds.Basic

/-! The size of the pool. Connections arrive and end as whole calls; a thread is made when no idle
one is left, so that there are as many threads as there ever were connections at once. -/
namespace ThreadPoolPeak

open PointerChain ThreadPool Pool ThreadPoolLists
open ThreadCounters (connections)
open ThreadStatistics (length_all)
open SawaServer (signed)

/-! ### What a history says -/

/-- The connections held after the events: those that arrived and have not ended. -/
def held : List Event → ℕ
  | [] => 0
  | .created _ :: h | .reused _ :: h => held h + 1
  | .released _ :: h => held h - 1

def arrivals : List Event → ℕ
  | [] => 0
  | .created _ :: h | .reused _ :: h => arrivals h + 1
  | .released _ :: h => arrivals h

/-- The most connections held at once, over all moments of a history. -/
def peak : List Event → ℕ
  | [] => 0
  | e :: h => max (held (e :: h)) (peak h)

theorem peak_greatest (h : List Event) : IsGreatest {n | ∃ s, s <:+ h ∧ held s = n} (peak h) := by
  induction h with
  | nil =>
    refine ⟨⟨[], List.suffix_rfl, rfl⟩, ?_⟩
    rintro n ⟨s, hs, rfl⟩
    rw [List.suffix_nil.mp hs, held, peak]
  | cons e h ih =>
    obtain ⟨⟨s, hs, hpeak⟩, hle⟩ := ih
    constructor
    · rcases le_total (held (e :: h)) (peak h) with hmax | hmax
      · refine ⟨s, hs.trans (List.suffix_cons e h), ?_⟩
        rw [peak, max_eq_right hmax, hpeak]
      · refine ⟨e :: h, List.suffix_rfl, ?_⟩
        rw [peak, max_eq_left hmax]
    · rintro n ⟨t, ht, rfl⟩
      rcases List.suffix_cons_iff.mp ht with rfl | ht
      · exact le_max_left _ _
      · exact (hle ⟨t, ht, rfl⟩).trans (le_max_right _ _)

/-! ### Sums over the threads -/

def sumOver (f : Addr → ℤ) : List Addr → ℤ
  | [] => 0
  | a :: l => f a + sumOver f l

theorem sumOver_congr {f g : Addr → ℤ} {l : List Addr} (hfg : ∀ a ∈ l, f a = g a) :
    sumOver f l = sumOver g l := by
  induction l with
  | nil => rfl
  | cons a l ih =>
    have ha := hfg a List.mem_cons_self
    have hl := ih fun b hb => hfg b (List.mem_cons_of_mem a hb)
    rw [sumOver, sumOver, ha, hl]

/-- One more for one thread of the list is one more in all. -/
theorem sumOver_add_one {f g : Addr → ℤ} {l : List Addr} {a : Addr} (hnd : l.Nodup) (ha : a ∈ l)
    (hg : ∀ b, g b = f b + if b = a then 1 else 0) : sumOver g l = sumOver f l + 1 := by
  induction l with
  | nil => exact absurd ha List.not_mem_nil
  | cons c l ih =>
    obtain ⟨hc, hl⟩ := List.nodup_cons.mp hnd
    rcases List.mem_cons.mp ha with rfl | hal
    · have hrest : sumOver g l = sumOver f l := by
        apply sumOver_congr
        intro b hb
        have hba : b ≠ a := by
          rintro rfl
          exact hc hb
        simp [hg, hba]
      rw [sumOver, sumOver, hrest, hg, if_pos rfl]
      omega
    · have hca : c ≠ a := by
        rintro rfl
        exact hc hal
      rw [sumOver, sumOver, ih hl hal, hg, if_neg hca]
      omega

/-! ### Runs -/

/-- The pool holds as many threads as there ever were connections at once; each of them serves
a connection or is idle, and `nb_connections` counts what it was given. -/
structure Sized (h : List Event) (p : Pool) : Prop where
  lists : Invariant h p
  used_or_idle : ∀ a ∈ createdIn h, InUse h a ∨ a ∈ idleSince h
  balance : held h + (idleSince h).length = (createdIn h).length
  peak_eq : peak h = (createdIn h).length
  counts : ∀ a ∈ createdIn h, (p.heap a).nbConnections = connections a h
  unused : ∀ a, a ∉ createdIn h → connections a h = 0
  sum : sumOver (fun a => connections a h) (createdIn h) = arrivals h

section Steps
variable {h : List Event} {p : Pool} {a : Addr}

theorem connections_cast {h' : List Event}
    (hconn : ∀ b, connections b h' = connections b h + if b = a then 1 else 0) (b : Addr) :
    (connections b h' : ℤ) = connections b h + if b = a then 1 else 0 := by
  rw [hconn b]
  split_ifs <;> simp

theorem idleSince_reused {b : Addr} {rest : List Addr} (hi : Invariant h p)
    (hidle : idleSince h = b :: rest) : idleSince (.reused b :: h) = rest := by
  have hnd : (b :: rest).Nodup := hidle ▸ hi.lists.idle_chain.nodup
  rw [idleSince, hidle, List.filter_cons_of_neg (by simp)]
  apply List.filter_eq_self.mpr
  intro c hc
  apply decide_eq_true
  rintro rfl
  exact (List.nodup_cons.mp hnd).1 hc

theorem sized_created (hs : Sized h p) {q : Pool} {sock : ℤ} (hidle : idleSince h = [])
    (hnew : a ∉ createdIn h) (hq : Invariant (.created a :: h) q)
    (hheap : q.heap = (p.linkNew a sock).heap) : Sized (.created a :: h) q := by
  have hbal := hs.balance
  have hconn : ∀ b, connections b (.created a :: h) = connections b h + if b = a then 1 else 0 :=
    fun b => rfl
  constructor
  · exact hq
  · intro b hb
    rcases List.mem_cons.mp hb with rfl | hb
    · exact Or.inl (Or.inl rfl)
    · exact (hs.used_or_idle b hb).imp Or.inr id
  · simp only [held, idleSince, createdIn, List.length_cons]
    omega
  · simp only [hidle, List.length_nil] at hbal
    simp only [peak, held, createdIn, List.length_cons, hs.peak_eq]
    omega
  · intro b hb
    rw [hheap, hconn b]
    by_cases hba : b = a
    · subst hba
      simp [hs.unused b hnew, linkNew, construct]
    · have hbm := (List.mem_cons.mp hb).resolve_left hba
      simp [hs.counts b hbm, hba, linkNew]
  · intro b hb
    obtain ⟨hba, hb⟩ := not_or.mp (mt List.mem_cons.mpr hb)
    rw [hconn b, if_neg hba, hs.unused b hb]
  · have hnd : (createdIn (.created a :: h)).Nodup := hq.lists.all_chain.nodup
    rw [sumOver_add_one hnd List.mem_cons_self (connections_cast hconn), createdIn, sumOver,
      hs.sum, hs.unused a hnew, arrivals]
    omega

theorem sized_reused (hs : Sized h p) {q : Pool} {sock : ℤ} {b : Addr} {rest : List Addr}
    (hidle : idleSince h = b :: rest) (hq : Invariant (.reused b :: h) q)
    (hheap : q.heap = (p.assign b sock).heap) : Sized (.reused b :: h) q := by
  have hbal := hs.balance
  have hb : b ∈ createdIn h := hs.lists.lists.idle_sub b (hidle ▸ List.mem_cons_self)
  have hrest := idleSince_reused hs.lists hidle
  have hconn : ∀ c, connections c (.reused b :: h) = connections c h + if c = b then 1 else 0 :=
    fun c => rfl
  constructor
  · exact hq
  · intro c hc
    rcases hs.used_or_idle c hc with huse | hci
    · exact Or.inl (Or.inr huse)
    · rw [hidle] at hci
      rw [hrest]
      exact (List.mem_cons.mp hci).imp Or.inl id
  · rw [hidle, List.length_cons] at hbal
    rw [hrest, held, createdIn]
    omega
  · rw [hidle, List.length_cons] at hbal
    rw [peak, held, createdIn, hs.peak_eq]
    omega
  · intro c hc
    rw [hheap, hconn c]
    by_cases hcb : c = b
    · subst hcb
      simp [hs.counts c hc, assign]
    · simp [hs.counts c hc, hcb, assign]
  · intro c hc
    have hcb : c ≠ b := by
      rintro rfl
      exact hc hb
    rw [hconn c, if_neg hcb, hs.unused c hc]
  · have hnd := hs.lists.lists.all_chain.nodup
    rw [createdIn, sumOver_add_one hnd hb (connections_cast hconn), hs.sum]
    rfl

theorem sized_released (hs : Sized h p) (huse : InUse h a) :
    Sized (.released a :: h) (p.releaseThread a) := by
  have hbal := hs.balance
  obtain ⟨hall, hnot⟩ := hs.lists.in_use a huse
  have hlt : (idleSince h).length < (createdIn h).length := by
    have hnd : (a :: idleSince h).Nodup :=
      List.nodup_cons.mpr ⟨hnot, hs.lists.lists.idle_chain.nodup⟩
    have hsub : a :: idleSince h ⊆ createdIn h := by
      intro b hb
      rcases List.mem_cons.mp hb with rfl | hb
      · exact hall
      · exact hs.lists.lists.idle_sub b hb
    exact (List.Nodup.subperm hnd hsub).length_le
  constructor
  · exact invariant_release hs.lists huse
  · intro b hb
    by_cases hba : b = a
    · subst hba
      exact Or.inr List.mem_cons_self
    · exact (hs.used_or_idle b hb).imp (⟨hba, ·⟩) (List.mem_cons_of_mem a)
  · simp only [held, idleSince, createdIn, List.length_cons]
    omega
  · rw [peak, held, createdIn, hs.peak_eq]
    omega
  · intro b hb
    rw [connections, ← hs.counts b hb]
    by_cases hba : b = a
    · subst hba
      simp [releaseThread, clearSock, pushIdle]
    · simp [releaseThread, clearSock, pushIdle, hba]
  · exact hs.unused
  · exact hs.sum

end Steps

theorem run_sized {h : List Event} {p : Pool} (r : Run h p) : Sized h p := by
  induction r with
  | init heap =>
    exact ⟨invariant_init heap, fun a ha => absurd ha List.not_mem_nil, rfl, rfl,
      fun a ha => absurd ha List.not_mem_nil, fun a _ => rfl, rfl⟩
  | @connect h p sock a created _ hnew ih =>
    have hq := invariant_connect sock created ih.lists hnew
    rcases connect_cases ih.lists sock a created with
      ⟨hidle, he, hheap⟩ | ⟨b, rest, hidle, he, hheap⟩
    · rw [he] at hq ⊢
      exact sized_created ih hidle hnew hq hheap
    · rw [he] at hq ⊢
      exact sized_reused ih hidle hq hheap
  | release a _ huse ih => exact sized_released ih huse

theorem created_without_idle {h : List Event} {p : Pool} (r : Run h p) :
    ∀ s t a, h = s ++ .created a :: t → idleSince t = [] := by
  induction r with
  | init heap =>
    intro s t a heq
    simp at heq
  | @connect h p sock b created r _ ih =>
    intro s t a heq
    cases s with
    | nil =>
      obtain ⟨he, rfl⟩ := List.cons.inj heq
      rcases connect_cases (run_invariant r) sock b created with ⟨hidle, -⟩ | ⟨c, rest, -, hc, -⟩
      · exact hidle
      · exact absurd (he.symm.trans hc) (by simp)
    | cons e s => exact ih s t a (List.cons.inj heq).2
  | release b _ _ ih =>
    intro s t a heq
    cases s with
    | nil => exact absurd (List.cons.inj heq).1 (by simp)
    | cons e s => exact ih s t a (List.cons.inj heq).2

/-! ### The size of the pool -/

/-- `thread_nb` is the most connections ever held at once, a thread is made only when none is
idle, and each thread stays in the pool, in use or on the idle list. -/
structure PeakExact (h : List Event) (p : Pool) : Prop where
  thread_nb : IsGreatest {n | ∃ s, s <:+ h ∧ held s = n} p.threadNb
  created_when_needed : ∀ s t a, h = s ++ .created a :: t → idleSince t = []
  all_chain : Chain p.nextAll p.allThreads (createdIn h)
  idle_chain : Chain p.next p.idleThreads (idleSince h)
  kept : ∀ a ∈ createdIn h, InUse h a ∧ a ∉ idleSince h ∨ ¬ InUse h a ∧ a ∈ idleSince h

/-- The value of the field `nb_connections`, an `int`. -/
def nbConnections (p : Pool) (a : Addr) : ℤ := signed (UInt32.ofNat (p.heap a).nbConnections)

theorem pool_sized_by_peak {h : List Event} {p : Pool} (r : Run h p) :
    PeakExact h p ∧ (∀ a ∈ createdIn h, (p.heap a).nbConnections = connections a h) ∧
      sumOver (fun a => connections a h) (createdIn h) = arrivals h ∧
      ((∀ a ∈ createdIn h, connections a h < 2 ^ 31) →
        sumOver (nbConnections p) (createdIn h) = arrivals h) := by
  have hs := run_sized r
  have hi := hs.lists
  refine ⟨⟨?_, created_without_idle r, hi.lists.all_chain, hi.lists.idle_chain, ?_⟩, hs.counts,
    hs.sum, ?_⟩
  · rw [← length_all hi.lists, ← hs.peak_eq]
    exact peak_greatest h
  · intro a ha
    rcases hs.used_or_idle a ha with huse | hidle
    · exact Or.inl ⟨huse, (hi.in_use a huse).2⟩
    · exact Or.inr ⟨fun huse => (hi.in_use a huse).2 hidle, hidle⟩
  · intro hbound
    rw [← hs.sum]
    apply sumOver_congr
    intro a ha
    rw [nbConnections, hs.counts a ha]
    exact SawaFrameLoop.signed_ofNat (hbound a ha)

/-- Two connections at once, the first of which ends before a third one arrives. -/
theorem three_arrivals_two_threads :
    ∃ p, PeakExact [.reused 0, .released 0, .created 1, .created 0] p ∧ p.threadNb = 2 ∧
      sumOver (nbConnections p) [1, 0] = 3 := by
  have h2 : Run [.created 1, .created 0]
      (((init staleHeap).handleNewConnection 5 0 0).handleNewConnection 6 1 0) :=
    .connect 6 1 0 (.connect 5 0 0 (.init staleHeap) (by decide)) (by decide)
  have h3 := Run.release 0 h2 (by simp [InUse])
  have h4 : Run [.reused 0, .released 0, .created 1, .created 0] _ := .connect 7 2 0 h3 (by decide)
  obtain ⟨hpeak, -, -, hsum⟩ := pool_sized_by_peak h4
  exact ⟨_, hpeak, by decide, hsum (by decide)⟩

/-! ### One thread for connection after connection -/

/-- A client that comes back as soon as its connection has ended. -/
theorem run_back_again (n : ℕ) : ∃ h p, Run h p ∧ createdIn h = [0] ∧ idleSince h = [] ∧
    InUse h 0 ∧ arrivals h = n + 1 := by
  induction n with
  | zero =>
    exact ⟨_, _, .connect 5 0 0 (.init staleHeap) (by decide), rfl, rfl, Or.inl rfl, rfl⟩
  | succ n ih =>
    obtain ⟨h, p, r, hall, hidle, huse, harr⟩ := ih
    have hrel := Run.release 0 r huse
    have hnew : 1 ∉ createdIn (.released 0 :: h) := by simp [createdIn, hall]
    have hcon := Run.connect 5 1 0 hrel hnew
    rcases connect_cases (run_invariant hrel) 5 1 0 with ⟨hnil, -⟩ | ⟨b, rest, hcons, he, -⟩
    · exact absurd hnil (by simp [idleSince])
    · obtain ⟨rfl, rfl⟩ := List.cons.inj (show 0 :: idleSince h = b :: rest from hcons)
      rw [he] at hcon
      refine ⟨_, _, hcon, hall, ?_, Or.inl rfl, by simp [arrivals, harr]⟩
      simp [idleSince, hidle]

/-- The 2^31 arrivals that one thread serves are more than an `int` shows. -/
theorem sum_beyond_int : ¬ ∀ h p, Run h p →
    PeakExact h p ∧ sumOver (nbConnections p) (createdIn h) = arrivals h := by
  intro hall
  obtain ⟨h, p, r, hcreated, -, -, harr⟩ := run_back_again (2 ^ 31 - 1)
  have hsum := (hall h p r).2
  rw [hcreated, harr, sumOver, sumOver, nbConnections, signed] at hsum
  have hlt := Int32.toInt_lt (UInt32.ofNat (p.heap 0).nbConnections).toInt32
  omega

end ThreadPoolPeak
