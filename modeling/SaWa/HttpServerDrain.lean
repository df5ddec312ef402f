import SaWa.HttpPool
import SaWa.PooledDrain

/-! The HTTP server on its pool comes to rest when its clients have closed their connections, and
by then every browser has got its pages. -/
namespace HttpServerDrain

open EffectProgram InterleavedPrograms RankedRuns ThreadPool ThreadPoolHandoff ThreadPoolDrain
  PooledServer PooledDrain
open HttpServer HttpReadData HttpSessions ContentFraming HttpPageCache HttpBrowsers HttpPool

abbrev WebPool := Pooled Unit (fun _ => Bool) (Option Unit) Process Here

/-! ### The rounds of a connection -/

section Rounds
variable {mode : ℕ → Mode} {p : Process} {rounds : ℕ} {h : Here}

/-- A round that leaves the connection open has used a read up, and the close is still to come. -/
theorem reads_round (hclose : [] ∈ h.2.reads) (hlive : p.alive = true)
    (hopen : (round mode p h).2.isOpen = true) :
    [] ∈ (round mode p h).2.reads ∧
      (round mode p h).2.reads.length + 1 = h.2.reads.length := by
  obtain ⟨after, full, reads, isOpen, written⟩ := h
  cases isOpen with
  | false =>
    have hsame := congrArg (fun u : Server Unit => (u.connections ()).isOpen)
      (@step_closed Unit _ mode (fun _ => after) ()
        ⟨p.session, p.alive, fun _ => ⟨full, reads, false, written⟩⟩ rfl)
    have hboth : true = false := hopen.symm.trans hsame
    cases hboth
  | true =>
    cases reads with
    | nil => cases hclose
    | cons bytes reads =>
      let s : Server Unit := ⟨p.session, p.alive, fun _ => ⟨full, bytes :: reads, true, written⟩⟩
      have hconn : s.connections () = ⟨full, bytes :: reads, true, written⟩ := rfl
      by_cases hnil : bytes = []
      · subst hnil
        have hend := congrArg (fun u : Server Unit => (u.connections ()).isOpen)
          (@step_end Unit _ mode (fun _ => after) () s full reads written hlive hconn)
        simp only [Function.update_self] at hend
        exact absurd (hopen.symm.trans hend) (by decide)
      · have hlater : [] ∈ reads := (List.mem_cons.mp hclose).resolve_left (Ne.symm hnil)
        have hreads : (round mode p
            (after, ⟨full, bytes :: reads, true, written⟩)).2.reads = reads := by
          by_cases hends : bytes.length < requestMessageLen ∨
              (block bytes).drop (requestMessageLen - 4) ≠ blankLine
          · have hstep := congrArg (fun u : Server Unit => (u.connections ()).reads)
              (@step_request Unit _ mode (fun _ => after) () s full reads bytes written hlive
                hconn hnil hends)
            simp only [Function.update_self] at hstep
            exact hstep
          · have hstep := congrArg (fun u : Server Unit => (u.connections ()).reads)
              (@step_block Unit _ mode (fun _ => after) () s full reads bytes written hlive
                hconn hnil hends)
            simp only [Function.update_self] at hstep
            exact hstep
        rw [hreads]
        exact ⟨hlater, rfl⟩

theorem ends_readData (hclose : [] ∈ h.2.reads) (hrounds : h.2.reads.length ≤ rounds) :
    Ends (handler mode) (fun a _ => a = some ()) h.2.reads.length (readData rounds) h := by
  have hpos : 0 < h.2.reads.length := List.length_pos_of_mem hclose
  induction rounds generalizing h with
  | zero => omega
  | succ n ih =>
    obtain ⟨k, hk⟩ : ∃ k, h.2.reads.length = k + 1 := ⟨h.2.reads.length - 1, by omega⟩
    rw [readData_succ, hk]
    refine ends_call fun p => ?_
    by_cases hgoes : (handler mode () (p, h)).1 = true
    · rw [if_pos hgoes]
      obtain ⟨hlive, hopen⟩ := Bool.and_eq_true_iff.mp hgoes
      obtain ⟨hlater, hless⟩ := reads_round hclose (round_alive hlive) hopen
      have hfits : (round mode p h).2.reads.length ≤ n := by omega
      have hleft : (round mode p h).2.reads.length ≤ k := by omega
      have hrest := @ih (h.1, (round mode p h).2) hlater hfits
        (List.length_pos_of_mem hlater)
      exact hrest.mono hleft fun _ _ ha => ha
    · rw [if_neg hgoes]
      exact ends_ret k rfl

end Rounds

/-! ### The server at rest -/

abbrev ServerGoes (d : Disk) (heaps : ℕ → Heap) (rounds : ℕ) : WebPool → WebPool → Prop :=
  Goes (handler (siteMode d heaps)) (readData rounds)

/-- Every connection was served to its end and closed, and every browser among the clients, which
are sent `here`, has got all the pages that it asked for. -/
structure AllServed (d : Disk) (here : ℕ → Here) (s : WebPool) : Prop where
  drained : Drained s.pool
  pages : ∀ c < s.pool.accepted, ∀ pages, Asks d pages →
    (here c).2 = ⟨[], readsOf pages ++ [[]], true, []⟩ →
    readMessages pages.length (s.here c).2.written = some (pages.map Prod.snd, [])

end HttpServerDrain
