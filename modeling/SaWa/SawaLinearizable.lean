import SaWa.PooledServer
import SaWa.SawaSharedStream
import SaWa.ServingThreads

/-! The connections of the server as clients of one disk. A request takes effect at its transfer, so
the threads serve the requests as if one came after the other, as long as no thread moves the
position of the shared stream between the seek of another and its transfer. Clients may send any
bytes. -/
namespace SawaLinearizable

open EffectProgram InterleavedPrograms RangeStore LittleEndian SawaProtocol SawaServer SawaServerRun
  Linearizability ServingThreads PooledServer ThreadPool ThreadPoolHandoff
open SawaSharedStream (readFile_accepted writeFile_accepted)

/-! ### The disk -/

/-- What a request may be answered. The bytes of a READ past the end of the file may be any. -/
def Answered : Request → List UInt8 → List UInt8 → Prop
  | .info, _, reply => reply = wordBytes nbSectors
  | .read offset size, contents, reply =>
    if Accepted offset size then
      reply.length = size.toNat ∧ slice contents offset.toNat size.toNat <+: reply
    else reply = [sawaMsgNoauth]
  | .write offset payload, _, reply =>
    reply = [if Accepted offset (UInt32.ofNat payload.length) then sawaMsgOk else sawaMsgNoauth]

def disk : Spec Request (List UInt8) (List UInt8) := fun r contents reply contents' =>
  Answered r contents reply ∧ contents' = contentsAfter r contents

/-! ### The threads -/

/-- A connection, and where its thread has sought last. -/
structure Seeker where
  conn : Conn
  sought : ℕ

def Seeker.note (w : Seeker) (c : Conn) : Call → Seeker
  | .fseek offset => ⟨c, offset⟩
  | _ => ⟨c, w.sought⟩

/-- The calls as `sysHandler` answers them. -/
def seekerHandler : Handler Call Answer (Shared × Seeker) := fun e (s, w) =>
  let (r, s', c) := sysHandler e (s, w.conn)
  (r, s', w.note c e)

/-- A request is asked for where its function is entered, and answered by the `write` to its
socket. -/
def event : Call → Option (Event Request (List UInt8))
  | .enter .sendInfo => some (.ask .info)
  | .enter (.readFile offset size) => some (.ask (.read offset size))
  | .enter (.writeFile offset payload) => some (.ask (.write offset payload))
  | .write bytes => some (.answer bytes)
  | _ => none

/-- The position is still where the thread has sought. Calls that transfer no byte may run
anywhere. -/
def inPlace : Call → Shared × Seeker → Bool
  | .fread size, (s, w) => size = 0 || s.fp.pos = w.sought
  | .fwrite bytes, (s, w) => bytes = [] || s.fp.pos = w.sought
  | _, _ => true

abbrev ServesDisk {α : Type} (p : ServerM α) (w : Seeker) (q : Client Request (List UInt8)) :
    Prop :=
  Serves seekerHandler event inPlace disk (fun s => s.fp.contents) p w q

section Serves
variable {α : Type} {w : Seeker} {offset size : UInt32} {payload : List UInt8}

theorem serves_ret (a : α) : ServesDisk (.ret a : ServerM α) w .idle := rfl

theorem serves_ask {e : Entry} {r : Request} {k : Unit → ServerM α}
    (he : event (.enter e) = some (.ask r)) (hk : ServesDisk (k ()) w (.asked r)) :
    ServesDisk (.call (.enter e) k) w .idle := by
  intro s _
  refine ⟨.asked r, ?_, hk⟩
  rw [he]
  exact .ask _ r

/-- The answer that is given at the same time as the request is served. -/
theorem serves_reply {r : Request} {bytes : List UInt8}
    (hans : ∀ contents, Answered r contents bytes) (hsame : ∀ l, contentsAfter r l = l) :
    ServesDisk (.call (.write bytes) .ret) w (.asked r) := by
  intro s _
  exact ⟨.idle, .reply _ r bytes _ ⟨hans _, (hsame _).symm⟩, rfl⟩

theorem serves_sendInfo : ServesDisk sendInfo w .idle :=
  serves_ask (r := .info) rfl (serves_reply (fun _ => rfl) fun _ => rfl)

/-- What a READ answers begins with the bytes of its range, and has the size asked for. -/
theorem answered_read (h : Accepted offset size) (contents : List UInt8) (buffer : Mem) :
    Answered (.read offset size) contents
      (load (store buffer 0 (slice contents offset.toNat size.toNat)) 0 size.toNat) := by
  rw [Answered, if_pos h]
  refine ⟨length_load _ _ _, ?_⟩
  rw [load_store_past buffer (length_slice_le contents offset.toNat size.toNat)]
  exact List.prefix_append _ _

theorem serves_readFile : ServesDisk (readFile offset size) w .idle := by
  by_cases h : Accepted offset size
  · rw [readFile_accepted h]
    apply serves_ask (r := .read offset size) rfl
    refine serves_quiet rfl (fun _ => rfl) fun _ _ => ?_
    refine serves_quiet rfl (fun _ => rfl) fun s₁ _ => ?_
    -- The file is read where the thread has sought, and that is when the READ is served.
    intro s hplace
    have hgot : s.fp.freadBytes size.toNat = slice s.fp.contents offset.toNat size.toNat := by
      rcases Bool.or_eq_true_iff.mp hplace with hzero | hpos
      · have hz : size.toNat = 0 := of_decide_eq_true hzero
        simp [FileStream.freadBytes, slice, hz]
      · have hp : s.fp.pos = offset.toNat := of_decide_eq_true hpos
        rw [FileStream.freadBytes, hp]
    refine ⟨_, Moves.serve _ (Request.read offset size) _ _
      ⟨answered_read h s.fp.contents (s₁.heap 0), rfl⟩, ?_⟩
    intro t _
    refine ⟨.idle, ?_, rfl⟩
    show Moves disk _ _ (some (.answer (load (store (s₁.heap 0) 0 (s.fp.freadBytes size.toNat)) 0
      size.toNat))) _ _
    rw [hgot]
    exact .answer _ _
  · rw [readFile, perform_bind, checkValidRequest_refused h]
    apply serves_ask (r := .read offset size) rfl
    apply serves_reply
    · intro contents
      rw [Answered, if_neg h]
    · exact fun _ => rfl

theorem serves_writeFile {addr : Mem} : ServesDisk (writeFile addr offset size) w .idle := by
  have hsize : UInt32.ofNat (load addr 0 size.toNat).length = size := by
    rw [length_load, UInt32.ofNat_toNat]
  by_cases h : Accepted offset size
  · have hacc : Accepted offset (UInt32.ofNat (load addr 0 size.toNat).length) := hsize.symm ▸ h
    rw [writeFile_accepted h]
    apply serves_ask (r := .write offset (load addr 0 size.toNat)) rfl
    refine serves_quiet rfl (fun _ => rfl) fun _ _ => ?_
    -- The WRITE is served when the file is written.
    intro s hplace
    have hdisk : disk (.write offset (load addr 0 size.toNat)) s.fp.contents [sawaMsgOk]
        (s.fp.fwrite (load addr 0 size.toNat)).contents := by
      refine ⟨by rw [Answered, if_pos hacc], ?_⟩
      rw [contentsAfter, if_pos hacc, FileStream.fwrite]
      rcases Bool.or_eq_true_iff.mp hplace with hnil | hpos
      · have hn : load addr 0 size.toNat = [] := of_decide_eq_true hnil
        rw [hn, patch_nil, patch_nil]
      · have hp : s.fp.pos = offset.toNat := of_decide_eq_true hpos
        rw [hp]
    refine ⟨_, Moves.serve _ _ _ _ hdisk, ?_⟩
    refine serves_quiet rfl (fun _ => rfl) fun _ _ => ?_
    intro _ _
    exact ⟨.idle, .answer _ _, rfl⟩
  · have hacc : ¬ Accepted offset (UInt32.ofNat (load addr 0 size.toNat).length) :=
      hsize.symm ▸ h
    rw [writeFile, perform_bind, checkValidRequest_refused h]
    apply serves_ask (r := .write offset (load addr 0 size.toNat)) rfl
    apply serves_reply
    · intro contents
      rw [Answered, if_neg hacc]
    · intro l
      rw [contentsAfter, if_neg hacc]

theorem serves_updateScreen (idx : Fin 3) : ServesDisk (updateScreen idx) w .idle :=
  serves_quiet rfl (fun _ => rfl) fun _ _ => serves_ret ()

theorem serves_processRequest (addr : Mem) : ServesDisk (processRequest addr size) w .idle := by
  rw [processRequest, perform_bind]
  refine serves_quiet rfl (fun _ => rfl) fun _ _ => ?_
  dsimp only
  split_ifs
  · exact serves_bind serves_sendInfo fun _ _ => serves_updateScreen infoCol
  · exact serves_bind serves_readFile fun _ _ => serves_updateScreen readCol
  · exact serves_bind serves_writeFile fun _ _ => serves_updateScreen writeCol
  · exact serves_ret ()

theorem serves_readDataRound : ServesDisk (readDataRound ()) w .idle := by
  rw [readDataRound, frameRound, perform_bind]
  refine serves_quiet rfl (fun _ => rfl) fun _ _ => ?_
  split
  · exact serves_ret _
  · dsimp only
    split_ifs
    · exact serves_ret _
    · exact serves_ret _
    · rw [perform_bind]
      refine serves_quiet rfl (fun _ => rfl) fun _ _ => ?_
      rw [perform_bind]
      refine serves_quiet rfl (fun _ => rfl) fun _ _ => ?_
      split
      · exact serves_ret _
      · exact serves_bind (serves_processRequest _) fun _ _ => serves_ret _
    · exact serves_ret _

theorem serves_readData (rounds : ℕ) : ServesDisk (readData rounds) w .idle := by
  induction rounds generalizing w with
  | zero => exact serves_ret none
  | succ n ih =>
    refine serves_bind serves_readDataRound fun a c => ?_
    cases a with
    | inl _ => exact ih
    | inr b => exact serves_ret (some b)

end Serves

/-! ### The server on its thread pool -/

abbrev ServerPool := Pooled Call Answer (Option Leave) (Observed ℕ Shared Request (List UInt8))
  (ℕ × Seeker)

/-- The connections before their threads have sought. -/
def incoming (conns : ℕ → Conn) (c : ℕ) : ℕ × Seeker := (c, ⟨conns c, 0⟩)

/-- A run of the server on its pool, from its first connection. -/
def ServerRuns (rounds : ℕ) (shared : Shared) (conns : ℕ → Conn) (s : ServerPool) : Prop :=
  ∃ heap, Runs (observing seekerHandler event inPlace) (readData rounds)
    (opened heap (unseen shared) (incoming conns) (readData rounds)) s

/-- The connections have been sent what a disk answers that serves their requests one after the
other as they come, and the file is that disk; a finished connection has been answered all. -/
structure ServedByDisk (shared : Shared) (conns : ℕ → Conn) (s : ServerPool) : Prop where
  sent : ∀ c, (s.here c).2.conn.output = (conns c).output ++ answers c s.shared.history
  linearizable : ∃ os, Linearizes disk shared.fp.contents s.shared.history os
    s.shared.state.fp.contents
  all_answered : ∀ c ∈ s.pool.finished,
    (answers c s.shared.history).length = (asks c s.shared.history).length

theorem output_seekerHandler (e : Call) (s : Shared) (w : Seeker) :
    (seekerHandler e (s, w)).2.2.conn.output =
      w.conn.output ++ ((event e).bind Event.ret?).toList := by
  cases e with
  | enter f => cases f <;> exact (List.append_nil _).symm
  | write bytes => rfl
  | _ => exact (List.append_nil _).symm

section Runs
variable {rounds : ℕ} {shared : Shared} {conns : ℕ → Conn} {s : ServerPool}

/-- The threads that the pool agrees with. -/
def serverThreads (rounds : ℕ) (shared : Shared) (conns : ℕ → Conn) :
    Threads ℕ Call Answer (Option Leave) (Observed ℕ Shared Request (List UInt8)) (ℕ × Seeker) :=
  threads (unseen shared) (incoming conns) (readData rounds)

theorem agrees (hr : ServerRuns rounds shared conns s) : ∃ order, Agree (readData rounds) s
    ((serverThreads rounds shared conns).runs (observing seekerHandler event inPlace) order) := by
  obtain ⟨heap, hr⟩ := hr
  exact agree_run (Reachable.init heap) (agree_opened heap (unseen shared) (incoming conns)) hr

theorem sent_answers (hr : ServerRuns rounds shared conns s) (c : ℕ) :
    (s.here c).2.conn.output = (conns c).output ++ answers c s.shared.history := by
  obtain ⟨order, ha⟩ := agrees hr
  have hstart : Kept (fun w : Seeker => w.conn.output) (fun c => (conns c).output)
      (serverThreads rounds shared conns) := fun _ => ⟨rfl, (List.append_nil _).symm⟩
  have hsent := (kept_runs inPlace output_seekerHandler hstart order c).2
  rwa [ha.here, ha.shared] at hsent

theorem history_explained (hr : ServerRuns rounds shared conns s)
    (hplace : s.shared.undisturbed = true) :
    (∃ os, Linearizes disk shared.fp.contents s.shared.history os s.shared.state.fp.contents) ∧
      ∀ c ∈ s.pool.finished,
        (answers c s.shared.history).length = (asks c s.shared.history).length := by
  obtain ⟨order, ha⟩ := agrees hr
  rw [← ha.shared] at hplace
  have hserves : ∀ c, ServesDisk (readData rounds) (incoming conns c).2 .idle :=
    fun _ => serves_readData rounds
  have hname : ∀ c, ((serverThreads rounds shared conns).here c).1 = c := fun _ => rfl
  obtain ⟨hlin, hall⟩ := linearizes_runs hname rfl hserves order hplace
  rw [ha.shared] at hlin hall
  refine ⟨hlin, fun c hc => ?_⟩
  obtain ⟨v, hv⟩ := ha.returned c hc
  exact hall c v hv

end Runs

/-! ### A writer and a reader -/

/-- A client that has sent this request. -/
def asking (r : Request) : Conn := ⟨message r.frame, fun _ => 16, [], fun _ => 0⟩

def writerAndReader (c : ℕ) : Conn :=
  if c = 0 then asking (.write 1 [7]) else asking (.read 1 1)

def threeBytes : Shared := ⟨⟨[0, 0, 0], 0⟩, fun _ _ => 0, fun _ => 0⟩

def newHeap : Addr → ConnectionThread := fun _ => ⟨0, 0, 0, fun _ => 0, none, none⟩

/-- Both connections are open, and the reader's request is served after the writer's. -/
theorem writer_then_reader : ∃ s, ServerRuns 4 threeBytes writerAndReader s ∧
    s.pool.accepted = 2 ∧ s.shared.undisturbed = true ∧ s.shared.history =
      [(0, .ask (.write 1 [7])), (0, .answer [sawaMsgOk]), (1, .ask (.read 1 1)),
        (1, .answer [7])] := by
  have hs := Reachable.init newHeap
  have r := @Runs.refl _ _ _ _ _ (observing seekerHandler event inPlace) (readData 4)
    (opened newHeap (unseen threeBytes) (incoming writerAndReader) (readData 4))
  replace r := r.quiet hs (.accept _ 5 rfl (by decide) rfl) rfl
  replace r := r.quiet hs (.testEmpty _ 5 rfl rfl) rfl
  replace r := r.quiet hs (.create _ 5 0 rfl (by simp [opened, initial])) rfl
  replace r := r.quiet hs (.spawn _ 0 rfl) rfl
  replace r := r.quiet hs (.accept _ 6 rfl (by decide) rfl) rfl
  replace r := r.quiet hs (.testEmpty _ 6 rfl rfl) rfl
  replace r := r.quiet hs (.create _ 6 1 rfl (by simp [opened, initial])) rfl
  replace r := r.quiet hs (.spawn _ 1 rfl) rfl
  replace r := r.quiet hs (.start _ 0 rfl) rfl
  replace r := r.quiet hs (.start _ 1 rfl) rfl
  replace r := @Runs.worker _ _ _ _ _ _ _ _ _ 0 5 0 (readData 4) r rfl rfl rfl
  replace r := @Runs.worker _ _ _ _ _ _ _ _ _ 1 6 1 (readData 4) r rfl rfl rfl
  exact ⟨_, ⟨newHeap, r⟩, rfl, by decide +kernel, by decide +kernel⟩

/-- A request that writes nothing to the range. -/
def LeavesAlone (p n : ℕ) : Request → Prop
  | .write offset payload => Apart offset.toNat payload.length p n
  | _ => True

section Contents
variable {l bytes : List UInt8} {p q n : ℕ}

theorem slice_patch_again (l : List UInt8) (p : ℕ) (d : List UInt8) :
    slice (patch 0 l p d) p d.length = d := by
  by_cases hd : d = []
  · rw [hd]
    rfl
  · have hlen : p + d.length ≤ (patch 0 l p d).length := by
      rw [length_patch 0 l p hd]
      exact le_max_right _ _
    rw [slice_eq_load 0 hlen, image_patch, load_store_self]

theorem slice_contentsAfter {r : Request} (hl : slice l p n = bytes) (hn : bytes.length = n)
    (hr : LeavesAlone p n r) : slice (contentsAfter r l) p n = bytes := by
  cases r with
  | info => exact hl
  | read offset size => exact hl
  | write offset payload =>
    rw [contentsAfter]
    split_ifs
    · have hfull : (slice l p n).length = n := by rw [hl, hn]
      have hfull' : (slice (patch 0 l offset.toNat payload) p n).length = n := by
        have hle := length_le_length_patch 0 l offset.toNat payload
        rw [length_slice_eq_iff] at hfull ⊢
        omega
      rw [slice_eq_load_of_full 0 hfull', image_patch, load_store_apart _ hr,
        ← slice_eq_load_of_full 0 hfull]
      exact hl
    · exact hl

theorem slice_runs {os : List (Operation ℕ Request (List UInt8))} {l' : List UInt8}
    (hruns : disk.Runs l os l') (hl : slice l p n = bytes) (hn : bytes.length = n)
    (hos : ∀ o ∈ os, LeavesAlone p n o.op) : slice l' p n = bytes := by
  induction os generalizing l with
  | nil =>
    obtain rfl : l' = l := hruns
    exact hl
  | cons o os ih =>
    obtain ⟨ho, hrest⟩ := List.forall_mem_cons.mp hos
    obtain ⟨m, ⟨-, rfl⟩, hm⟩ := hruns
    exact ih hm (slice_contentsAfter hl hn ho) hrest

theorem slice_slice (l : List UInt8) (hq : p ≤ q) {k : ℕ} (hk : q + k ≤ p + n) :
    slice (slice l p n) (q - p) k = slice l q k := by
  obtain ⟨d, rfl⟩ := Nat.exists_eq_add_of_le hq
  rw [Nat.add_sub_cancel_left, slice, slice, slice, List.drop_take, List.take_take, List.drop_drop,
    Nat.min_eq_left (by omega)]

/-- A READ inside a range that holds these bytes is answered with its part of them. -/
theorem answered_held {offset size : UInt32} {reply : List UInt8} (hacc : Accepted offset size)
    (h : Answered (.read offset size) l reply) (hl : slice l p n = bytes) (hn : bytes.length = n)
    (hp : p ≤ offset.toNat) (hend : offset.toNat + size.toNat ≤ p + n) :
    reply = slice bytes (offset.toNat - p) size.toNat := by
  rw [Answered, if_pos hacc] at h
  obtain ⟨hlen, hbegins⟩ := h
  rw [← hl, slice_slice l hp hend]
  apply (hbegins.eq_of_length _).symm
  have hpart : (slice bytes (offset.toNat - p) size.toNat).length = size.toNat := by
    rw [length_slice_eq_iff]
    omega
  rw [hlen, ← slice_slice l hp hend, hl, hpart]

end Contents

theorem accepted_of_le {offset size : UInt32} (h : offset.toNat + size.toNat ≤ capacity) :
    Accepted offset size := by
  have hcap := capacity_eq
  rw [accepted_iff, Nat.mod_eq_of_lt (by omega)]
  exact h

section Visible
variable {rounds i j n m : ℕ} {shared : Shared} {conns : ℕ → Conn} {s : ServerPool}
  {H₀ H₁ H₂ H₃ : History ℕ Request (List UInt8)} {offset offset' size : UInt32}
  {payload : List UInt8}

end Visible

end SawaLinearizable
