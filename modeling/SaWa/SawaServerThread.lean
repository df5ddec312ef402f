import SaWa.RelyGuarantee
import SaWa.SawaLinearizable

/-! A connection thread of the server among the others, call by call, with one message to serve.
One of its calls serves the request: the transfer, or for INFO the entry of its function. What is
sent later tells the file as it was at that call. -/
namespace SawaServerThread

open EffectProgram InterleavedPrograms RangeStore LittleEndian SawaProtocol SawaServer SawaServerRun
  SawaServerBounds SawaSharedStream
open SawaLinearizable (Seeker seekerHandler inPlace)

/-- `seen` has the file as it was at each call that served a request. -/
structure Worker where
  seeker : Seeker
  seen : List (List UInt8)

abbrev Worker.conn (w : Worker) : Conn := w.seeker.conn

def Worker.withConn (w : Worker) (c : Conn) : Worker := { w with seeker := ⟨c, w.seeker.sought⟩ }

def servesRequest : Call → Bool
  | .enter .sendInfo | .fread _ | .fwrite _ => true
  | _ => false

/-- The calls as `sysHandler` answers them. -/
def workerHandler : Handler Call Answer (Shared × Worker) := fun e (s, w) =>
  ((seekerHandler e (s, w.seeker)).1, (seekerHandler e (s, w.seeker)).2.1,
    ⟨(seekerHandler e (s, w.seeker)).2.2,
      if servesRequest e then w.seen ++ [s.fp.contents] else w.seen⟩)

/-- An `fread` or `fwrite` runs where its thread has sought last. -/
def InPlace (e : Call) : Shared × Worker → Prop := fun (s, w) => inPlace e (s, w.seeker) = true

def HasCapacity (s : Shared) : Prop := s.fp.contents.length = capacity

/-- The reply to a request inside the filesystem. -/
def replyFrom : Request → List UInt8 → List UInt8
  | .info, _ => wordBytes nbSectors
  | .read offset size, l => slice l offset.toNat size.toNat
  | .write _ _, _ => [sawaMsgOk]

section Thread
variable {α : Type} {r : Request} {seen out : List (List UInt8)} {w w' : Worker}

/-- How far a thread is with a request. Before it, `seen` and `out` were its file states and its
output. -/
inductive Stage (r : Request) (seen out : List (List UInt8)) (w : Worker) : Prop where
  | waiting (hseen : w.seen = seen) (hout : w.conn.output = out)
  | served (l : List UInt8) (hseen : w.seen = seen ++ [l]) (hout : w.conn.output = out)
  | answered (l : List UInt8) (hseen : w.seen = seen ++ [l])
    (hout : w.conn.output = out ++ [replyFrom r l])

/-- The file is left alone by every call but the one that serves the request. -/
structure ThreadStep (r : Request) (seen out : List (List UInt8)) (x y : Shared × Worker) :
    Prop where
  stage : Stage r seen out y.2
  moves : (y.2.seen = x.2.seen ∧ y.1.fp.contents = x.1.fp.contents) ∨
    (y.2.seen = x.2.seen ++ [x.1.fp.contents] ∧
      y.1.fp.contents = contentsAfter r x.1.fp.contents)

abbrev ServesRequest (r : Request) (seen out : List (List UInt8)) (Q : α → Worker → Prop)
    (p : ServerM α) (w : Worker) : Prop :=
  Steps workerHandler HasCapacity InPlace (ThreadStep r seen out) Q p w

/-- The request has been answered, and nothing has been read from the socket since. -/
structure Answered (r : Request) (seen out : List (List UInt8)) (input : List UInt8) (cut : ℕ → ℕ)
    (w : Worker) : Prop where
  answered : ∃ l, w.seen = seen ++ [l] ∧ w.conn.output = out ++ [replyFrom r l]
  input_eq : w.conn.input = input
  cut_eq : w.conn.cut = cut

theorem Stage.of_eq (h : Stage r seen out w) (hseen : w'.seen = w.seen)
    (hout : w'.conn.output = w.conn.output) : Stage r seen out w' := by
  cases h with
  | waiting hs ho => exact .waiting (hseen.trans hs) (hout.trans ho)
  | served l hs ho => exact .served l (hseen.trans hs) (hout.trans ho)
  | answered l hs ho => exact .answered l (hseen.trans hs) (hout.trans ho)

theorem Stage.once (h : Stage r seen out w) {more : List (List UInt8)} {l : List UInt8}
    (hs : w.seen = (seen ++ more) ++ [l]) : more = [] := by
  have hlength := congrArg List.length hs
  cases h with
  | waiting hseen => simp [hseen] at hlength
  | served l' hseen => simpa [hseen] using hlength
  | answered l' hseen => simpa [hseen] using hlength

/-- A call that serves nothing, answers nothing and leaves the file alone. -/
theorem serves_quiet {Q : α → Worker → Prop} {e : Call} {k : Answer e → ServerM α}
    (hw : Stage r seen out w) (hquiet : servesRequest e = false)
    (hfile : ∀ s, (workerHandler e (s, w)).2.1.fp.contents = s.fp.contents)
    (hout : ∀ s, (workerHandler e (s, w)).2.2.conn.output = w.conn.output)
    (hk : ∀ s, HasCapacity s → ServesRequest r seen out Q (k (workerHandler e (s, w)).1)
      (workerHandler e (s, w)).2.2) :
    ServesRequest r seen out Q (.call e k) w := by
  intro s hs _
  have hseen : (workerHandler e (s, w)).2.2.seen = w.seen := by
    simp [workerHandler, hquiet]
  exact ⟨⟨hw.of_eq hseen (hout s), .inl ⟨hseen, hfile s⟩⟩, hk s hs⟩

theorem serves_updateScreen {input : List UInt8} {cut : ℕ → ℕ} (idx : Fin 3)
    (hw : Answered r seen out input cut w) :
    ServesRequest r seen out (fun _ => Answered r seen out input cut) (updateScreen idx) w := by
  obtain ⟨⟨l, hseen, hout⟩, hinput, hcut⟩ := hw
  refine serves_quiet (.answered l hseen hout) rfl (fun _ => rfl) (fun _ => rfl) fun s _ => ?_
  exact ⟨⟨l, hseen, hout⟩, hinput, hcut⟩

theorem serves_sendInfo (hseen : w.seen = seen) (hout : w.conn.output = out) :
    ServesRequest .info seen out
      (fun _ => Answered .info seen out w.conn.input w.conn.cut) sendInfo w := by
  intro s _ _
  refine ⟨⟨.served s.fp.contents (congrArg (· ++ _) hseen) hout, .inr ⟨rfl, rfl⟩⟩, ?_⟩
  intro t _ _
  have hseen' : w.seen ++ [s.fp.contents] = seen ++ [s.fp.contents] := by rw [hseen]
  have hout' : w.conn.output ++ [wordBytes nbSectors] = out ++ [wordBytes nbSectors] := by rw [hout]
  exact ⟨⟨.answered s.fp.contents hseen' hout', .inl ⟨rfl, rfl⟩⟩,
    ⟨_, hseen', hout'⟩, rfl, rfl⟩

/-- Where the thread has sought, the `fread` gets the bytes of the range. -/
theorem freadBytes_in_place {s : Shared} {offset size : UInt32}
    (hplace : InPlace (.fread size.toNat) (s, w)) (hsought : w.seeker.sought = offset.toNat) :
    s.fp.freadBytes size.toNat = slice s.fp.contents offset.toNat size.toNat := by
  rcases Bool.or_eq_true_iff.mp hplace with hzero | hpos
  · have hz : size.toNat = 0 := of_decide_eq_true hzero
    simp [FileStream.freadBytes, slice, hz]
  · have hp : s.fp.pos = w.seeker.sought := of_decide_eq_true hpos
    rw [FileStream.freadBytes, hp, hsought]

theorem fwrite_in_place {s : Shared} {offset : UInt32} {payload : List UInt8}
    (hplace : InPlace (.fwrite payload) (s, w)) (hsought : w.seeker.sought = offset.toNat) :
    (s.fp.fwrite payload).contents = patch 0 s.fp.contents offset.toNat payload := by
  rcases Bool.or_eq_true_iff.mp hplace with hnil | hpos
  · have hn : payload = [] := of_decide_eq_true hnil
    rw [FileStream.fwrite, hn, patch_nil, patch_nil]
  · have hp : s.fp.pos = w.seeker.sought := of_decide_eq_true hpos
    rw [FileStream.fwrite, hp, hsought]

theorem serves_readFile {offset size : UInt32} (hin : Inside capacity (.read offset size))
    (hseen : w.seen = seen) (hout : w.conn.output = out) :
    ServesRequest (.read offset size) seen out
      (fun _ => Answered (.read offset size) seen out w.conn.input w.conn.cut)
      (readFile offset size) w := by
  rw [readFile_accepted hin.accepted_read]
  have hwait := Stage.waiting (r := .read offset size) hseen hout
  refine serves_quiet hwait rfl (fun _ => rfl) (fun _ => rfl) fun _ _ => ?_
  refine serves_quiet (hwait.of_eq rfl rfl) rfl (fun _ => rfl) (fun _ => rfl) fun _ _ => ?_
  refine serves_quiet (hwait.of_eq rfl rfl) rfl (fun _ => rfl) (fun _ => rfl) fun s₁ _ => ?_
  intro s hs hplace
  have hgot : s.fp.freadBytes size.toNat = slice s.fp.contents offset.toNat size.toNat :=
    freadBytes_in_place hplace rfl
  have hseen' : w.seen ++ [s.fp.contents] = seen ++ [s.fp.contents] := by rw [hseen]
  refine ⟨⟨.served s.fp.contents hseen' hout, .inr ⟨rfl, rfl⟩⟩, ?_⟩
  intro t _ _
  -- The block is as long as the range, so all of it is overwritten.
  have hreply : load (store (s₁.heap 0) 0 (s.fp.freadBytes size.toNat)) 0 size.toNat =
      replyFrom (.read offset size) s.fp.contents := by
    have hlen : (slice s.fp.contents offset.toNat size.toNat).length = size.toNat :=
      length_slice (hs ▸ hin.end_le)
    have hself := load_store_self (s₁.heap 0) 0 (slice s.fp.contents offset.toNat size.toNat)
    rw [hlen, ← hgot] at hself
    exact hself.trans hgot
  have hout' : w.conn.output ++ [load (store (s₁.heap 0) 0 (s.fp.freadBytes size.toNat)) 0
      size.toNat] = out ++ [replyFrom (.read offset size) s.fp.contents] := by rw [hout, hreply]
  exact ⟨⟨.answered s.fp.contents hseen' hout', .inl ⟨rfl, rfl⟩⟩, ⟨_, hseen', hout'⟩, rfl, rfl⟩

theorem serves_writeFile {addr : Mem} {offset : UInt32} {payload : List UInt8}
    (hin : Inside capacity (.write offset payload))
    (haddr : load addr 0 (UInt32.ofNat payload.length).toNat = payload)
    (hseen : w.seen = seen) (hout : w.conn.output = out) :
    ServesRequest (.write offset payload) seen out
      (fun _ => Answered (.write offset payload) seen out w.conn.input w.conn.cut)
      (writeFile addr offset (UInt32.ofNat payload.length)) w := by
  rw [writeFile_accepted hin.accepted_write, haddr]
  have hwait := Stage.waiting (r := .write offset payload) hseen hout
  refine serves_quiet hwait rfl (fun _ => rfl) (fun _ => rfl) fun _ _ => ?_
  refine serves_quiet (hwait.of_eq rfl rfl) rfl (fun _ => rfl) (fun _ => rfl) fun _ _ => ?_
  intro s _ hplace
  have hfile : (s.fp.fwrite payload).contents =
      contentsAfter (.write offset payload) s.fp.contents := by
    rw [contentsAfter, if_pos hin.accepted_write]
    exact fwrite_in_place hplace rfl
  have hseen' : w.seen ++ [s.fp.contents] = seen ++ [s.fp.contents] := by rw [hseen]
  have hserved : Stage (.write offset payload) seen out
      (workerHandler (.fwrite payload) (s, ⟨⟨w.conn, offset.toNat⟩, w.seen⟩)).2.2 :=
    .served s.fp.contents hseen' hout
  refine ⟨⟨hserved, .inr ⟨rfl, hfile⟩⟩, ?_⟩
  refine serves_quiet hserved rfl (fun _ => rfl) (fun _ => rfl) fun _ _ => ?_
  intro t _ _
  have hout' : w.conn.output ++ [[sawaMsgOk]] = out ++ [[sawaMsgOk]] := by rw [hout]
  exact ⟨⟨.answered s.fp.contents hseen' hout', .inl ⟨rfl, rfl⟩⟩, ⟨_, hseen', hout'⟩, rfl, rfl⟩

theorem serves_requestProgram (m : Mem) (hin : Inside capacity r) (hseen : w.seen = seen)
    (hout : w.conn.output = out) :
    ServesRequest r seen out (fun _ => Answered r seen out w.conn.input w.conn.cut)
      (requestProgram (store m 0 r.frame) r) w := by
  cases r with
  | info =>
    exact steps_bind (serves_sendInfo hseen hout) fun _ _ hw => serves_updateScreen infoCol hw
  | read offset size =>
    exact steps_bind (serves_readFile hin hseen hout) fun _ _ hw => serves_updateScreen readCol hw
  | write offset payload =>
    have haddr := payload_at m offset hin.payload_lt
    exact steps_bind (serves_writeFile hin haddr hseen hout) fun _ _ hw =>
      serves_updateScreen writeCol hw

/-! ### A whole message -/

/-- Every coming read may bring as many bytes as this. -/
def Whole (n : ℕ) (c : Conn) : Prop := ∀ k, n ≤ c.cut k

theorem readBytes_append {n : ℕ} {c : Conn} (hw : Whole n c) {a b : List UInt8}
    (hin : c.input = a ++ b) (ha : a.length ≤ n) : c.readBytes a.length = a := by
  have hcut := hw 0
  rw [Conn.readBytes, hin, Nat.min_eq_left (by omega), List.take_left]

theorem input_append {n : ℕ} {c : Conn} (hw : Whole n c) {a b : List UInt8}
    (hin : c.input = a ++ b) (ha : a.length ≤ n) : (c.afterRead a.length).input = b := by
  rw [Conn.afterRead, readBytes_append hw hin ha, hin, List.drop_left]

/-- The two reads that bring a message, and what they leave. -/
theorem message_reads {n : ℕ} {c : Conn} {f : List UInt8} (hinput : c.input = message f)
    (hw : Whole n c) (h4 : 4 ≤ n) (hn : f.length ≤ n) :
    c.readBytes 4 = wordBytes (UInt32.ofNat f.length) ∧
      (c.afterRead 4).readBytes f.length = f ∧
        ((c.afterRead 4).afterRead f.length).input = [] := by
  have hrest : (c.afterRead 4).input = f ++ [] :=
    (input_append hw hinput (show 4 ≤ n from h4)).trans (List.append_nil _).symm
  have hwhole : Whole n (c.afterRead 4) := fun k => hw (k + 1)
  exact ⟨readBytes_append hw hinput (show 4 ≤ n from h4), readBytes_append hwhole hrest hn,
    input_append hwhole hrest hn⟩

/-- One round of `readData` on a connection that brings one message. -/
theorem serves_round {n : ℕ} (hin : Inside capacity r) (hlen : r.frame.length ≤ 32768)
    (hinput : w.conn.input = message r.frame) (hw : Whole n w.conn) (h4 : 4 ≤ n)
    (hn : r.frame.length ≤ n) (hseen : w.seen = seen) (hout : w.conn.output = out) :
    ServesRequest r seen out (fun a w' => a = .inl () ∧
      Answered r seen out [] (fun k => w.conn.cut (k + 2)) w') (readDataRound ()) w := by
  have hwait := Stage.waiting (r := r) hseen hout
  have hsize : (UInt32.ofNat r.frame.length).toNat = r.frame.length := toNat_ofNat (by omega)
  obtain ⟨hheader, hbody, hend⟩ := message_reads hinput hw h4 hn
  rw [readDataRound, frameRound, perform_bind]
  refine serves_quiet hwait rfl (fun _ => rfl) (fun _ => rfl) fun s _ => ?_
  have hshort : ¬ (wordBytes (UInt32.ofNat r.frame.length)).length < 4 := by
    rw [length_wordBytes]
    decide
  have hlong : ¬ 32768 < UInt32.ofNat r.frame.length := by
    rw [UInt32.lt_iff_toNat_lt, hsize]
    exact Nat.not_lt.mpr hlen
  have hpos : 0 < UInt32.ofNat r.frame.length := by
    rw [UInt32.lt_iff_toNat_lt, hsize]
    exact List.length_pos_iff.mpr r.frame_ne_nil
  have hword := wordOf_wordBytes (UInt32.ofNat r.frame.length)
  have hanswer : (workerHandler (.read 4) (s, w)).1 =
      some (wordBytes (UInt32.ofNat r.frame.length)) := congrArg some hheader
  rw [hanswer]
  dsimp only
  generalize wordOf (wordBytes (UInt32.ofNat r.frame.length)) = expectedSize at hword
  subst hword
  simp only [hshort, hlong, hpos, if_false, decide_false, decide_true, if_true, Bool.false_eq_true]
  rw [perform_bind]
  refine serves_quiet (hwait.of_eq rfl rfl) rfl (fun _ => rfl) (fun _ => rfl) fun s₁ _ => ?_
  rw [perform_bind]
  refine serves_quiet (hwait.of_eq rfl rfl) rfl (fun _ => rfl) (fun _ => rfl) fun s₂ _ => ?_
  have hframe : (workerHandler (.read (UInt32.ofNat r.frame.length).toNat) (s₂,
      (workerHandler (.alloc (UInt32.ofNat r.frame.length).toNat)
        (s₁, (workerHandler (.read 4) (s, w)).2.2)).2.2)).1 = some r.frame := by
    rw [hsize]
    exact congrArg some hbody
  have hinput' : (workerHandler (.read (UInt32.ofNat r.frame.length).toNat) (s₂,
      (workerHandler (.alloc (UInt32.ofNat r.frame.length).toNat)
        (s₁, (workerHandler (.read 4) (s, w)).2.2)).2.2)).2.2.conn.input = [] := by
    rw [hsize]
    exact hend
  rw [hframe]
  refine steps_bind (Q := fun _ => Answered r seen out [] fun k => w.conn.cut (k + 2)) ?_
    fun _ _ hdone => ⟨rfl, hdone⟩
  rw [processRequest_frame _ hin.frame_lt]
  refine serves_quiet (hwait.of_eq rfl rfl) rfl (fun _ => rfl) (fun _ => rfl) fun s₃ _ => ?_
  rw [← hinput']
  exact serves_requestProgram (s₁.heap 0) hin hseen hout

/-- A connection that brings one message and ends. -/
theorem serves_readData {n rounds : ℕ} (hin : Inside capacity r) (hlen : r.frame.length ≤ 32768)
    (hinput : w.conn.input = message r.frame) (hw : Whole n w.conn) (h4 : 4 ≤ n)
    (hn : r.frame.length ≤ n) (hseen : w.seen = seen) (hout : w.conn.output = out)
    (hr : 1 < rounds) :
    ServesRequest r seen out (fun _ w' => ∃ l, w'.seen = seen ++ [l] ∧
      w'.conn.output = out ++ [replyFrom r l]) (readData rounds) w := by
  obtain ⟨m, rfl⟩ : ∃ m, rounds = m + 2 := ⟨rounds - 2, by omega⟩
  refine steps_bind (serves_round hin hlen hinput hw h4 hn hseen hout) ?_
  rintro _ w' ⟨rfl, ⟨l, hseen', hout'⟩, hinput', -⟩
  have hnone : w'.conn.readBytes 4 = [] := by rw [Conn.readBytes, hinput', List.take_nil]
  refine steps_bind (p := readDataRound ()) (Q := fun a w' => a = .inr .returned ∧
    w'.seen = seen ++ [l] ∧ w'.conn.output = out ++ [replyFrom r l]) ?_ ?_
  · rw [readDataRound, frameRound, perform_bind]
    refine serves_quiet (.answered l hseen' hout') rfl (fun _ => rfl) (fun _ => rfl) fun s _ => ?_
    have hanswer : (workerHandler (.read 4) (s, w')).1 = some [] := congrArg some hnone
    rw [hanswer]
    exact ⟨rfl, hseen', hout'⟩
  · rintro _ w'' ⟨rfl, h⟩
    exact ⟨l, h⟩

end Thread

/-! ### How many calls a round makes -/

theorem within_readFile (offset size : UInt32) : Within 5 (readFile offset size) := by
  by_cases h : Accepted offset size
  · rw [readFile_accepted h]
    exact fun _ _ _ _ _ => within_ret 0 ()
  · rw [readFile, perform_bind, checkValidRequest_refused h]
    exact fun _ _ => within_ret 3 ()

theorem within_writeFile (addr : Mem) (offset size : UInt32) :
    Within 5 (writeFile addr offset size) := by
  by_cases h : Accepted offset size
  · rw [writeFile_accepted h]
    intro _ seek
    dsimp only
    split_ifs
    · exact fun _ _ _ => within_ret 0 ()
    · exact fun _ => within_ret 2 ()
  · rw [writeFile, perform_bind, checkValidRequest_refused h]
    exact fun _ _ => within_ret 3 ()

theorem within_processRequest (addr : Mem) (size : UInt32) :
    Within 7 (processRequest addr size) := by
  have hscreen : ∀ idx, Within 1 (updateScreen idx) := fun idx => within_perform _
  have hinfo : Within 2 sendInfo := fun _ _ => within_ret 0 ()
  rw [processRequest, perform_bind]
  intro _
  dsimp only
  split_ifs
  · exact (within_bind hinfo fun _ => hscreen infoCol).mono (by decide)
  · exact within_bind (within_readFile _ _) fun _ => hscreen readCol
  · exact within_bind (within_writeFile _ _ _) fun _ => hscreen writeCol
  · exact within_ret 6 ()

theorem within_readDataRound : Within 10 (readDataRound ()) := by
  rw [readDataRound, frameRound, perform_bind]
  intro header
  cases header with
  | none => exact within_ret 9 _
  | some header =>
    dsimp only
    split_ifs
    · exact within_ret 9 _
    · exact within_ret 9 _
    · rw [perform_bind]
      intro _
      dsimp only
      rw [perform_bind]
      intro body
      cases body with
      | none => exact within_ret 7 _
      | some body =>
        exact within_bind (n := 7) (m := 0) (within_processRequest _ _) fun _ => within_ret 0 _
    · exact within_ret 9 _

theorem within_readData (rounds : ℕ) : Within (10 * rounds) (readData rounds) := by
  induction rounds with
  | zero => exact within_ret 0 none
  | succ n ih =>
    rw [Nat.mul_succ, Nat.add_comm]
    refine within_bind within_readDataRound fun a => ?_
    cases a with
    | inl _ => exact ih
    | inr b => exact within_ret _ _

/-! ### A thread that is not disturbed -/

def transfers : Call → Bool
  | .fread _ | .fwrite _ => true
  | _ => false

/-- Whether the thread has sought since its last transfer. -/
def soughtAfter (sought : Bool) : Call → Bool
  | .fseek _ => true
  | .fread _ | .fwrite _ => false
  | _ => sought

abbrev SeeksFirst {α : Type} (sought : Bool) (p : ServerM α) : Prop :=
  Primed transfers soughtAfter sought p

section SeeksFirst
variable {sought : Bool}

theorem seeksFirst_readFile (offset size : UInt32) : SeeksFirst sought (readFile offset size) := by
  by_cases h : Accepted offset size
  · rw [readFile_accepted h]
    refine primed_call rfl fun _ => primed_call rfl fun _ => primed_call rfl fun _ => ?_
    exact ⟨fun _ => rfl, fun _ => primed_call rfl fun _ => primed_ret⟩
  · rw [readFile, perform_bind, checkValidRequest_refused h]
    exact primed_call rfl fun _ => primed_call rfl fun _ => primed_ret

theorem seeksFirst_writeFile (addr : Mem) (offset size : UInt32) :
    SeeksFirst sought (writeFile addr offset size) := by
  by_cases h : Accepted offset size
  · rw [writeFile_accepted h]
    refine primed_call rfl fun _ => primed_call rfl fun seek => ?_
    split_ifs
    · exact ⟨fun _ => rfl, fun _ => primed_call rfl fun _ => primed_call rfl fun _ => primed_ret⟩
    · exact primed_call rfl fun _ => primed_ret
  · rw [writeFile, perform_bind, checkValidRequest_refused h]
    exact primed_call rfl fun _ => primed_call rfl fun _ => primed_ret

theorem seeksFirst_processRequest (addr : Mem) (size : UInt32) :
    SeeksFirst sought (processRequest addr size) := by
  have hscreen : ∀ idx b, SeeksFirst b (updateScreen idx) :=
    fun idx b => primed_call rfl fun _ => primed_ret
  rw [processRequest, perform_bind]
  refine primed_call rfl fun _ => ?_
  dsimp only
  split_ifs
  · exact primed_call rfl fun _ => primed_call rfl fun _ => hscreen infoCol _
  · exact primed_bind (seeksFirst_readFile _ _) fun _ => hscreen readCol
  · exact primed_bind (seeksFirst_writeFile _ _ _) fun _ => hscreen writeCol
  · exact primed_ret

theorem seeksFirst_readDataRound : SeeksFirst sought (readDataRound ()) := by
  rw [readDataRound, frameRound, perform_bind]
  refine primed_call rfl fun header => ?_
  cases header with
  | none => exact primed_ret
  | some header =>
    dsimp only
    split_ifs
    · exact primed_ret
    · exact primed_ret
    · rw [perform_bind]
      refine primed_call rfl fun _ => ?_
      rw [perform_bind]
      refine primed_call rfl fun body => ?_
      cases body with
      | none => exact primed_ret
      | some body => exact primed_bind (seeksFirst_processRequest _ _) fun _ _ => primed_ret
    · exact primed_ret

theorem seeksFirst_readData (rounds : ℕ) : SeeksFirst sought (readData rounds) := by
  induction rounds generalizing sought with
  | zero => exact primed_ret
  | succ n ih =>
    refine primed_bind seeksFirst_readDataRound fun a _ => ?_
    cases a with
    | inl _ => exact ih
    | inr b => exact primed_ret

/-- The position is where the thread has sought, unless it has made its transfer. -/
def AtSought (sought : Bool) (s : Shared) (w : Worker) : Prop :=
  sought = true → s.fp.pos = w.seeker.sought

variable {s : Shared} {w : Worker}

theorem atSought_false (s : Shared) (w : Worker) : AtSought false s w :=
  fun h => absurd h Bool.false_ne_true

theorem AtSought.in_place (h : AtSought sought s w) {e : Call}
    (he : transfers e = true → sought = true) : InPlace e (s, w) := by
  cases e with
  | fread size => exact Bool.or_eq_true_iff.mpr (.inr (decide_eq_true (h (he rfl))))
  | fwrite bytes => exact Bool.or_eq_true_iff.mpr (.inr (decide_eq_true (h (he rfl))))
  | _ => rfl

theorem AtSought.step (h : AtSought sought s w) (e : Call) :
    AtSought (soughtAfter sought e) (workerHandler e (s, w)).2.1 (workerHandler e (s, w)).2.2 := by
  cases e with
  | fseek offset => exact fun _ => rfl
  | fread size => exact atSought_false _ _
  | fwrite bytes => exact atSought_false _ _
  | _ => exact h

end SeeksFirst

end SawaServerThread
