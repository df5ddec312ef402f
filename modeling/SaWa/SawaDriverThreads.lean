import SaWa.SawaDriverOrder
import SaWa.SawaServerThread

/-! The driver's messages on the server's threads, call by call. A write returns once its message
is sent, so several threads of the server may be at work on messages of the driver, all over the
one stream. -/
namespace SawaDriverThreads

open EffectProgram InterleavedPrograms RangeStore LittleEndian SawaProtocol SawaServer SawaServerRun
  SawaServerBounds SawaServerThread SawaDriver SawaDriverRun SawaDriverCodec
open SawaSharedStream (Inside)
open SawaDriverOrder (Served start count updates Write ReadResult OnePiece lastData contents_served
  store_lastData storeAll_served run_sawaReadAnswer)

/-- A connection of the driver with the server thread it is left to, and the call it was opened
for. -/
structure Task where
  call : Command
  worker : Worker
  rest : ServerM (Option Leave)

namespace Task

/-- The server's reads get as many of these bytes as `cut` says. -/
def opened (call : Command) (wire : List UInt8) (cut : ℕ → ℕ) (info : Fin 3 → ℕ) : Task :=
  ⟨call, ⟨⟨⟨wire, cut, [], info⟩, 0⟩, []⟩, readData (wire.length + 1)⟩

/-- What the server has sent. -/
def reply (t : Task) : List UInt8 := t.worker.conn.output.flatten

def next (t : Task) : Option Call :=
  match t.rest with
  | .ret _ => none
  | .call e _ => some e

/-- The thread makes its next call. -/
def step (s : Shared) (t : Task) : Shared × Task :=
  match t.rest with
  | .ret _ => (s, t)
  | .call e k => ((workerHandler e (s, t.worker)).2.1,
      ⟨t.call, (workerHandler e (s, t.worker)).2.2, k (workerHandler e (s, t.worker)).1⟩)

/-- The writes that the thread has not made yet. -/
def pending (t : Task) : List (Update UInt8) := if t.worker.seen = [] then updates t.call else []

end Task

/-- The call of `sawa_read_data` that waits for its reply, with the writes that had returned when
it was issued, newest first. `number` is that of its connection. -/
structure Reading where
  number : ℕ
  sector : UInt64
  nbSectors : UInt64
  net : Net
  history : List Write

/-- `tasks` lists the connections in the order they were opened in, and `writes` the newest
first. -/
structure State where
  shared : Shared
  tasks : List Task
  reading : Option Reading
  writes : List Write

def initial (shared : Shared) : State := ⟨shared, [], none, []⟩

namespace State

def issue (s : State) (t : Task) : State := { s with tasks := s.tasks ++ [t] }

/-- What has been sent to the call that reads. -/
def reply (s : State) (r : Reading) : List UInt8 := (s.tasks[r.number]?.map Task.reply).getD []

/-- Thread `k` of the server makes its next call. -/
def serve (s : State) (k : ℕ) : State :=
  match s.tasks[k]? with
  | none => s
  | some t => { s with shared := (t.step s.shared).1, tasks := s.tasks.set k (t.step s.shared).2 }

/-- Every thread of the server has returned. -/
def Settled (s : State) : Prop := ∀ t ∈ s.tasks, ∃ a, t.rest = .ret a

end State

/-- A call carries this many bytes whole, and the server's reads get them whole. -/
def SentWhole (net : Net) (cut : ℕ → ℕ) (n : ℕ) : Prop := Carries net.sends n ∧ ∀ k, n ≤ cut k

/-- The next call of thread `k` is in place, and it serves its request ahead of no older write to
the same sectors. -/
structure Orderly (s : State) (k : ℕ) : Prop where
  in_place : ∀ t e, s.tasks[k]? = some t → t.next = some e → InPlace e (s.shared, t.worker)
  overtakes : ∀ t e, s.tasks[k]? = some t → t.next = some e → servesRequest e = true →
    ∀ y ∈ s.tasks.take k, ∀ u ∈ y.pending, u.ApartFrom (start t.call) (count t.call)

/-! ### The invariant -/

def pending (tasks : List Task) : List (Update UInt8) := tasks.flatMap Task.pending

/-- The thread is on its way through the request of its call. -/
structure Task.Sound (t : Task) : Prop where
  served : Served t.call
  stage : Stage t.call.request [] [] t.worker
  serves : ServesRequest t.call.request [] [] (fun _ w => ∃ l, w.seen = [] ++ [l] ∧
    w.conn.output = [] ++ [replyFrom t.call.request l]) t.rest t.worker

/-- The read that waits is the last call, and is served in a file that holds what was last
written. -/
structure Awaits (init : Mem) (s : State) (r : Reading) : Prop where
  history_eq : r.history = s.writes
  range : r.sector.toNat + r.nbSectors.toNat ≤ 2048
  one_piece : OnePiece r.net.recvs (512 * r.nbSectors.toNat)
  last : ∃ before t, s.tasks = before ++ [t] ∧ before.length = r.number ∧
    t.call = .readData r.sector r.nbSectors ∧ ∀ l, t.worker.seen = [l] → l.length = capacity ∧
      load (image 0 l) (512 * r.sector.toNat) (512 * r.nbSectors.toNat) =
        load (lastData init r.history) (512 * r.sector.toNat) (512 * r.nbSectors.toNat)

/-- The file becomes what the calls were to make of it once the pending writes are made in the
order they were sent in. -/
structure Invariant (init : Mem) (s : State) : Prop where
  length_eq : HasCapacity s.shared
  sound : ∀ t ∈ s.tasks, t.Sound
  pending_eq : storeAll (image 0 s.shared.fp.contents) (pending s.tasks) = lastData init s.writes
  awaits : ∀ r, s.reading = some r → Awaits init s r

section Tasks
variable {c : Command} {t : Task} {s : Shared}

theorem inside_served (h : Served c) : Inside capacity c.request := by
  have hcap := capacity_eq
  cases c with
  | sendInfo => exact ⟨by decide, by decide⟩
  | readData sector nbSectors =>
    have hs : sector.toNat + nbSectors.toNat ≤ 2048 := h
    have hend : 512 * sector.toNat + 512 * nbSectors.toNat ≤ capacity := by omega
    constructor <;> simpa only [Command.request, InRange, Request.start, Request.count,
      toNat_sectorBytes (show 512 * sector.toNat < 2 ^ 32 by omega),
      toNat_sectorBytes (show 512 * nbSectors.toNat < 2 ^ 32 by omega)] using hend
  | writeData sector nbSectors buffer =>
    obtain ⟨hs, -⟩ := h
    have hend : 512 * sector.toNat + 512 * nbSectors.toNat ≤ capacity := by omega
    constructor <;> simpa only [Command.request, InRange, Request.start, Request.count, length_load,
      toNat_sectorBytes (show 512 * sector.toNat < 2 ^ 32 by omega),
      toNat_sectorBytes (show 512 * nbSectors.toNat < 2 ^ 32 by omega)] using hend

/-- A new connection that brings the message whole. -/
theorem sound_opened (h : Served c) {cut : ℕ → ℕ} (hcut : ∀ k, c.message.length ≤ cut k)
    (info : Fin 3 → ℕ) : (Task.opened c c.message cut info).Sound := by
  have hmessage := message_request h.fits
  have hlen : c.message.length = 4 + c.request.frame.length := by
    rw [hmessage, length_message]
  have h4 : 4 ≤ c.message.length := by omega
  have hframe : c.request.frame.length ≤ c.message.length := by omega
  have hone : 1 < c.message.length + 1 := by omega
  exact ⟨h, .waiting rfl rfl, serves_readData (inside_served h) (request_frame_length h.fits)
    hmessage hcut h4 hframe rfl rfl hone⟩

/-- What a call of the thread makes of the file. -/
theorem Task.Sound.step (h : t.Sound) (hlen : HasCapacity s)
    (hplace : ∀ e, t.next = some e → InPlace e (s, t.worker)) :
    (t.step s).2.Sound ∧ (t.step s).2.call = t.call ∧
      (((t.step s).2.worker.seen = t.worker.seen ∧ (t.step s).1.fp.contents = s.fp.contents) ∨
        (t.worker.seen = [] ∧ (∃ e, t.next = some e ∧ servesRequest e = true) ∧
          (t.step s).2.worker.seen = [s.fp.contents] ∧
            (t.step s).1.fp.contents = contentsAfter t.call.request s.fp.contents)) := by
  cases hrest : t.rest with
  | ret a =>
    have hstep : t.step s = (s, t) := by simp only [Task.step, hrest]
    rw [hstep]
    exact ⟨h, rfl, .inl ⟨rfl, rfl⟩⟩
  | call e k =>
    have hnext : t.next = some e := by simp only [Task.next, hrest]
    have hstep : t.step s = ((workerHandler e (s, t.worker)).2.1, ⟨t.call,
        (workerHandler e (s, t.worker)).2.2, k (workerHandler e (s, t.worker)).1⟩) := by
      simp only [Task.step, hrest]
    have hserves := h.serves
    rw [hrest] at hserves
    obtain ⟨⟨hstage, hmoves⟩, hk⟩ := hserves s hlen (hplace e hnext)
    have hquiet : servesRequest e = false →
        (workerHandler e (s, t.worker)).2.2.seen = t.worker.seen := by
      intro hq
      simp [workerHandler, hq]
    rw [hstep]
    generalize workerHandler e (s, t.worker) = y at hstage hmoves hk hquiet
    refine ⟨⟨h.served, hstage, hk⟩, rfl, ?_⟩
    rcases hmoves with hsame | ⟨hseen, hfile⟩
    · exact .inl hsame
    · have hempty : t.worker.seen = [] := hstage.once hseen
      have hcall : servesRequest e = true := by
        by_contra hq
        have hsame := (hquiet (Bool.eq_false_iff.mpr hq)).symm.trans hseen
        simp at hsame
      rw [hempty] at hseen
      exact .inr ⟨hempty, ⟨e, hnext, hcall⟩, hseen, hfile⟩

end Tasks

section Steps
variable {init : Mem} {s : State} {r : Reading} {t : Task} {before after : List Task}

theorem pending_append (ts us : List Task) : pending (ts ++ us) = pending ts ++ pending us :=
  List.flatMap_append

theorem pending_cons (t : Task) (ts : List Task) : pending (t :: ts) = t.pending ++ pending ts :=
  List.flatMap_cons

theorem pending_opened (call : Command) (wire : List UInt8) (cut : ℕ → ℕ) (info : Fin 3 → ℕ) :
    pending [Task.opened call wire cut info] = updates call := by
  rw [pending_cons]
  exact List.append_nil _

theorem serve_eq (htasks : s.tasks = before ++ t :: after) : s.serve before.length =
    { s with shared := (t.step s.shared).1, tasks := before ++ (t.step s.shared).2 :: after } := by
  simp [State.serve, htasks]

theorem reading_serve (s : State) (k : ℕ) : (s.serve k).reading = s.reading := by
  unfold State.serve
  split <;> rfl

theorem writes_serve (s : State) (k : ℕ) : (s.serve k).writes = s.writes := by
  unfold State.serve
  split <;> rfl

/-- A message is sent to a thread of its own. -/
theorem sound_issue (hi : Invariant init s) (ht : t.Sound) : ∀ y ∈ (s.issue t).tasks, y.Sound := by
  intro y hy
  rcases List.mem_append.mp hy with hy | hy
  · exact hi.sound y hy
  · rw [List.mem_singleton.mp hy]
    exact ht

theorem invariant_write {sector nbSectors : UInt64} {buffer : Mem} {cut : ℕ → ℕ}
    (hi : Invariant init s) (hidle : s.reading = none)
    (hc : sector.toNat + nbSectors.toNat ≤ 2048 ∧ nbSectors.toNat ≤ 63)
    (hcut : ∀ k, (writeMessage sector nbSectors buffer).length ≤ cut k) (info : Fin 3 → ℕ) :
    Invariant init { s.issue (.opened (.writeData sector nbSectors buffer)
        (writeMessage sector nbSectors buffer) cut info) with
      writes := ⟨sector, nbSectors, buffer⟩ :: s.writes } := by
  constructor
  · exact hi.length_eq
  · exact sound_issue hi (sound_opened (c := .writeData sector nbSectors buffer) hc hcut info)
  · have hpending := hi.pending_eq
    rw [← store_lastData, ← hpending]
    show storeAll _ (pending (s.tasks ++ [_])) = _
    rw [pending_append, pending_opened, storeAll_append]
    rfl
  · intro r hr
    have hnone : s.reading = some r := hr
    rw [hidle] at hnone
    cases hnone

theorem invariant_ask {sector nbSectors : UInt64} {net : Net} {cut : ℕ → ℕ}
    (hi : Invariant init s) (hrange : sector.toNat + nbSectors.toNat ≤ 2048)
    (hone : OnePiece net.recvs (512 * nbSectors.toNat))
    (hcut : ∀ k, (readMessage sector nbSectors).length ≤ cut k) (info : Fin 3 → ℕ) :
    Invariant init { s.issue (.opened (.readData sector nbSectors) (readMessage sector nbSectors)
        cut info) with
      reading := some ⟨s.tasks.length, sector, nbSectors, net, s.writes⟩ } := by
  constructor
  · exact hi.length_eq
  · exact sound_issue hi (sound_opened (c := .readData sector nbSectors) hrange hcut info)
  · refine Eq.trans ?_ hi.pending_eq
    show storeAll _ (pending (s.tasks ++ [_])) = _
    rw [pending_append, pending_opened, updates, List.append_nil]
    rfl
  · rintro r ⟨⟩
    exact ⟨rfl, hrange, hone, s.tasks, _, rfl, rfl, rfl,
      fun l hl => absurd hl (List.cons_ne_nil l []).symm⟩

theorem wire_write {sector nbSectors : UInt64} {buffer : Mem} {rounds : ℕ} {net net' : Net}
    {cut : ℕ → ℕ} (hrange : sector.toNat + nbSectors.toNat ≤ 2048) (hnew : net.wire = [])
    (hok : Connects net → nbSectors.toNat ≤ 63 ∧ SentWhole net cut (9 + 512 * nbSectors.toNat))
    (hrun : run netHandler (sawaWriteData rounds sector nbSectors buffer) net = (some 0, net')) :
    net'.wire = writeMessage sector nbSectors buffer ∧ nbSectors.toNat ≤ 63 ∧
      ∀ k, (writeMessage sector nbSectors buffer).length ≤ cut k := by
  have hsize := toNat_sectorBytes (n := nbSectors) (by omega)
  have hsent := sent_sawaWriteData (by rw [hsize]; omega) hrun
  have hlen : (writeMessage sector nbSectors buffer).length = 9 + 512 * nbSectors.toNat := by
    rw [length_writeMessage, hsize]
  obtain ⟨h63, hcarries, hcut⟩ := hok hsent.connects
  rw [← hlen] at hcarries hcut
  exact ⟨(SawaDriverOrder.Sent.wire_eq hsent hnew hcarries).1, h63, hcut⟩

theorem wire_ask {sector nbSectors : UInt64} {rounds : ℕ} {net net' : Net} {cut : ℕ → ℕ}
    (hnew : net.wire = [])
    (hok : Connects net → SentWhole net cut 13 ∧ OnePiece net.recvs (512 * nbSectors.toNat))
    (hrun : run netHandler (sawaReadAsk rounds sector nbSectors) net = (some true, net')) :
    net'.wire = readMessage sector nbSectors ∧ OnePiece net'.recvs (512 * nbSectors.toNat) ∧
      ∀ k, (readMessage sector nbSectors).length ≤ cut k := by
  have hsent := sent_sawaReadAsk hrun
  obtain ⟨⟨hcarries, hcut⟩, hone⟩ := hok hsent.connects
  rw [← length_readMessage sector nbSectors] at hcarries hcut
  obtain ⟨hwire, hrecvs⟩ := SawaDriverOrder.Sent.wire_eq hsent hnew hcarries
  exact ⟨hwire, hrecvs ▸ hone, hcut⟩

/-- A read served ahead of no write to the same sectors finds the bytes last written. -/
theorem load_serve (hi : Invariant init s) (htasks : s.tasks = before ++ [t])
    {sector nbSectors : UInt64} (hcall : t.call = .readData sector nbSectors)
    (hov : ∀ u ∈ pending before, u.ApartFrom (start t.call) (count t.call)) :
    load (image 0 s.shared.fp.contents) (512 * sector.toNat) (512 * nbSectors.toNat) =
      load (lastData init s.writes) (512 * sector.toNat) (512 * nbSectors.toNat) := by
  have hnone : t.pending = [] := by
    rw [Task.pending, hcall, updates, ite_self]
  have hpend : pending s.tasks = pending before := by
    rw [htasks, pending_append, pending_cons, hnone]
    exact List.append_nil _
  rw [← hi.pending_eq, hpend, load_storeAll_apart]
  intro u hu
  have hu := hov u hu
  rwa [hcall] at hu

theorem invariant_call (hi : Invariant init s) (htasks : s.tasks = before ++ t :: after)
    (hplace : ∀ e, t.next = some e → InPlace e (s.shared, t.worker))
    (hov : ∀ e, t.next = some e → servesRequest e = true →
      ∀ u ∈ pending before, u.ApartFrom (start t.call) (count t.call)) :
    Invariant init { s with
      shared := (t.step s.shared).1, tasks := before ++ (t.step s.shared).2 :: after } := by
  have ht := hi.sound t (htasks ▸ List.mem_append_right _ List.mem_cons_self)
  obtain ⟨hsound, hcall, hmoves⟩ := ht.step hi.length_eq hplace
  generalize t.step s.shared = y at hsound hcall hmoves ⊢
  have hpend : pending s.tasks = pending before ++ (t.pending ++ pending after) := by
    rw [htasks, pending_append, pending_cons]
  have hpending := hi.pending_eq
  rw [hpend] at hpending
  have hsounds : ∀ z ∈ before ++ y.2 :: after, z.Sound := by
    intro z hz
    rcases List.mem_append.mp hz with hz | hz
    · exact hi.sound z (htasks ▸ List.mem_append_left _ hz)
    · rcases List.mem_cons.mp hz with rfl | hz
      · exact hsound
      · exact hi.sound z (htasks ▸ List.mem_append_right _ (List.mem_cons_of_mem _ hz))
  constructor
  · rcases hmoves with ⟨-, hfile⟩ | ⟨-, -, -, hfile⟩
    · exact (congrArg List.length hfile).trans hi.length_eq
    · exact (congrArg List.length hfile).trans (contents_served ht.served hi.length_eq).1
  · exact hsounds
  · show storeAll (image 0 y.1.fp.contents) (pending (before ++ y.2 :: after)) = _
    rw [pending_append, pending_cons, Task.pending, hcall]
    rcases hmoves with ⟨hseen, hfile⟩ | ⟨hempty, ⟨e, hnext, hserves⟩, hseen, hfile⟩
    · rw [hseen, hfile]
      exact hpending
    · rw [Task.pending, if_pos hempty] at hpending
      rw [if_neg (by simp [hseen]), hfile, (contents_served ht.served hi.length_eq).2,
        List.nil_append, storeAll_served (hov e hnext hserves)]
      exact hpending
  · intro r hr
    obtain ⟨hhistory, hrange, hone, before', t', htasks', hnumber, hread, hdata⟩ := hi.awaits r hr
    refine ⟨hhistory, hrange, hone, ?_⟩
    rcases SawaDriverOrder.append_cons_eq_concat (htasks.symm.trans htasks') with
      ⟨rfl, rfl, rfl⟩ | ⟨rest, rfl, rfl⟩
    · refine ⟨before, y.2, rfl, hnumber, hcall.trans hread, ?_⟩
      intro l hl
      rcases hmoves with ⟨hseen, -⟩ | ⟨-, ⟨e, hnext, hserves⟩, hseen, -⟩
      · exact hdata l (hseen.symm.trans hl)
      · obtain rfl : s.shared.fp.contents = l := List.singleton_inj.mp (hseen.symm.trans hl)
        rw [hhistory]
        exact ⟨hi.length_eq, load_serve hi htasks hread (hov e hnext hserves)⟩
    · refine ⟨before ++ y.2 :: rest, t', by simp, ?_, hread, hdata⟩
      rw [← hnumber]
      simp

/-- Every orderly call of a server thread keeps the invariant. -/
theorem invariant_serve (hi : Invariant init s) {k : ℕ} (hok : Orderly s k) :
    Invariant init (s.serve k) := by
  cases hget : s.tasks[k]? with
  | none =>
    simp only [State.serve, hget]
    exact hi
  | some t =>
    obtain ⟨hk, ht⟩ := List.getElem?_eq_some_iff.mp hget
    have htasks : s.tasks = s.tasks.take k ++ t :: s.tasks.drop (k + 1) := by
      rw [← ht, List.getElem_cons_drop, List.take_append_drop]
    have hlen : (s.tasks.take k).length = k := by
      rw [List.length_take, Nat.min_eq_left hk.le]
    have hserve := serve_eq htasks
    rw [hlen] at hserve
    rw [hserve]
    refine invariant_call hi htasks (fun e => hok.in_place t e hget) ?_
    intro e hnext hserves u hu
    obtain ⟨y, hy, hyu⟩ := List.mem_flatMap.mp hu
    exact hok.overtakes t e hget hnext hserves y hy u hyu

/-- What a read delivers that returns 0. -/
theorem right_answer (hi : Invariant init s) (hreading : s.reading = some r) {rounds : ℕ}
    {bufferIn buffer : Mem} {net' : Net}
    (h : run netHandler (sawaReadAnswer rounds r.nbSectors bufferIn)
      { r.net with reply := s.reply r } = (some (0, buffer), net')) :
    ReadResult.Right init ⟨r.sector, r.nbSectors, buffer, r.history⟩ := by
  obtain ⟨-, hrange, hone, before, t, htasks, hnumber, hread, hdata⟩ := hi.awaits r hreading
  obtain ⟨k, j, hk, hj, hlen, rfl⟩ := run_sawaReadAnswer h
  have hsector := toNat_sectorBytes (n := r.sector) (by omega)
  have hsize := toNat_sectorBytes (n := r.nbSectors) (by omega)
  have hcap := capacity_eq
  rw [hsize] at hlen ⊢
  have hreply : s.reply r = t.reply := by
    simp [State.reply, htasks, ← hnumber]
  rw [hreply] at hlen ⊢
  have hstage := (hi.sound t (htasks ▸ List.mem_append_right _ List.mem_cons_self)).stage
  have hnone : t.worker.conn.output = [] → False := by
    intro hout
    rw [Task.reply, hout] at hlen
    simp at hlen
  cases hstage with
  | waiting _ hout => exact absurd hout hnone
  | served _ _ hout => exact absurd hout hnone
  | answered l hseen hout =>
    obtain ⟨hlength, hload⟩ := hdata l hseen
    have hbytes : t.reply =
        load (lastData init r.history) (512 * r.sector.toNat) (512 * r.nbSectors.toNat) := by
      rw [← hload, Task.reply, hout, hread, Command.request, replyFrom, hsector, hsize,
        slice_eq_load 0 (by omega)]
      exact List.append_nil _
    exact SawaDriverOrder.right_of_reply hone hk hj hbytes hlen

theorem invariant_answer (hi : Invariant init s) : Invariant init { s with reading := none } :=
  ⟨hi.length_eq, hi.sound, hi.pending_eq, nofun⟩

theorem invariant_initial {shared : Shared} (h : HasCapacity shared) :
    Invariant (image 0 shared.fp.contents) (initial shared) :=
  ⟨h, nofun, rfl, nofun⟩

/-- Threads that have returned have made their writes. -/
theorem contents_settled (hi : Invariant init s) (hsettled : s.Settled) :
    image 0 s.shared.fp.contents = lastData init s.writes := by
  have hnone : pending s.tasks = [] := by
    apply List.flatMap_eq_nil_iff.mpr
    intro t ht
    obtain ⟨a, ha⟩ := hsettled t ht
    have hserves := (hi.sound t ht).serves
    rw [ha] at hserves
    obtain ⟨l, hseen, -⟩ := hserves
    rw [Task.pending, if_neg (by simp [hseen])]
  have hpending := hi.pending_eq
  rwa [hnone] at hpending

end Steps

/-! ### One thread at a time -/

/-- The server has one thread, which returns after at most `n` calls and is in place. -/
def Alone (n : ℕ) (s : State) : Prop :=
  ∃ t sought, s.tasks = [t] ∧ SeeksFirst sought t.rest ∧ AtSought sought s.shared t.worker ∧
    Within n t.rest

section Alone
variable {s : State} {n : ℕ}

theorem alone_issue (hs : s.tasks = []) (call : Command) (wire : List UInt8) (cut : ℕ → ℕ)
    (info : Fin 3 → ℕ) :
    Alone (10 * (wire.length + 1)) (s.issue (.opened call wire cut info)) := by
  refine ⟨.opened call wire cut info, false, ?_, seeksFirst_readData _,
    atSought_false _ _, within_readData _⟩
  rw [State.issue, hs]
  rfl

theorem Alone.orderly (h : Alone n s) : Orderly s 0 := by
  obtain ⟨t, sought, htasks, hseeks, hat, -⟩ := h
  have hfirst : ∀ u e, s.tasks[0]? = some u → u.next = some e → u = t ∧ ∃ k, t.rest = .call e k := by
    intro u e hu he
    rw [htasks] at hu
    obtain rfl : t = u := Option.some.inj hu
    refine ⟨rfl, ?_⟩
    unfold Task.next at he
    split at he
    · cases he
    · obtain rfl := Option.some.inj he
      exact ⟨_, ‹_›⟩
  constructor
  · intro u e hu he
    obtain ⟨rfl, k, hk⟩ := hfirst u e hu he
    rw [hk] at hseeks
    exact hat.in_place hseeks.1
  · intro u e hu he _ y hy
    exact absurd hy (by simp)

theorem Alone.serve (h : Alone (n + 1) s) : Alone n (s.serve 0) := by
  obtain ⟨t, sought, htasks, hseeks, hat, hwithin⟩ := h
  have hserve : s.serve 0 = { s with
      shared := (t.step s.shared).1, tasks := [(t.step s.shared).2] } :=
    @serve_eq s t [] [] htasks
  rw [hserve]
  cases hrest : t.rest with
  | ret a =>
    refine ⟨t, sought, ?_, hseeks, ?_, ?_⟩
    · simp [Task.step, hrest]
    · simpa [Task.step, hrest] using hat
    · rw [hrest]
      exact within_ret n a
  | call e k =>
    rw [hrest] at hseeks hwithin
    refine ⟨(t.step s.shared).2, soughtAfter sought e, rfl, ?_, ?_, ?_⟩
    · simpa only [Task.step, hrest] using hseeks.2 _
    · simpa only [Task.step, hrest] using hat.step e
    · simpa only [Task.step, hrest] using hwithin _

theorem Alone.settled (h : Alone 0 s) : s.Settled := by
  obtain ⟨t, -, htasks, -, -, hwithin⟩ := h
  intro u hu
  rw [htasks] at hu
  obtain rfl := List.mem_singleton.mp hu
  cases hrest : u.rest with
  | ret a => exact ⟨a, rfl⟩
  | call e k =>
    rw [hrest] at hwithin
    exact hwithin.elim

end Alone

end SawaDriverThreads
