import SaWa.InterleavedPrograms
import SaWa.SawaServerFlatDisk

/-! The connection threads of the server over the one stream they share. A transfer is two stdio
calls, a seek and the transfer itself, with no lock around them, so it is at the right place as
long as no other thread moves the position in between. -/
namespace SawaSharedStream

open EffectProgram InterleavedPrograms RangeStore LittleEndian SawaProtocol SawaServer SawaServerRun
  SawaServerBounds SawaServerFlatDisk

/-! ### Threads that are watched -/

/-- A READ that has been answered, with the file as it was when its `fread` ran, or a WRITE
whose `fwrite` has run, with the file before and after it. -/
inductive Transfer where
  | read (offset size : UInt32) (contents reply : List UInt8)
  | write (offset : UInt32) (payload before after : List UInt8)
  deriving DecidableEq, Repr

def Transfer.request : Transfer → Request
  | .read offset size _ _ => .read offset size
  | .write offset payload _ _ => .write offset payload

/-- A connection and what is seen of its thread: the function it entered last, the file at its
last `fread`, and its transfers in order. -/
structure Watched where
  conn : Conn
  entry : Option Entry
  seen : List UInt8
  done : List Transfer

def Watched.note (before after : List UInt8) (w : Watched) : Call → Watched
  | .enter f => { w with entry := some f }
  | .fread _ => { w with seen := before }
  | .fwrite _ =>
    match w.entry with
    | some (.writeFile offset payload) =>
      { w with done := w.done ++ [.write offset payload before after] }
    | _ => w
  | .write reply =>
    match w.entry with
    | some (.readFile offset size) =>
      { w with done := w.done ++ [.read offset size w.seen reply] }
    | _ => w
  | _ => w

/-- The calls as `sysHandler` answers them. -/
def watchedHandler : Handler Call Answer (Shared × Watched) := fun e (s, w) =>
  let (r, s', c) := sysHandler e (s, w.conn)
  (r, s', { w with conn := c }.note s.fp.contents s'.fp.contents e)

variable {ι : Type}

/-- Every connection on a thread of its own, before the first request is received. -/
def connections (s : Shared) (c : ι → Conn) (requests : ι → List Request) :
    Threads ι Call Answer Unit Shared Watched where
  shared := s
  here i := ⟨c i, none, [], []⟩
  rest i := serve (frames (requests i))

/-! ### What a transfer has to be -/

/-- The file changes to `d` from position `p` on, and nowhere else. -/
structure ChangesOnly (p : ℕ) (d before after : List UInt8) : Prop where
  length_eq : after.length = before.length
  inside : slice after p d.length = d
  outside : ∀ a, a < p ∨ p + d.length ≤ a → after[a]? = before[a]?

def Transfer.Exact : Transfer → Prop
  | .read offset size contents reply =>
    reply.length = size.toNat ∧ reply = slice contents offset.toNat size.toNat
  | .write offset payload before after => ChangesOnly offset.toNat payload before after

def transfersOf (requests : List Request) : List Request := requests.filter (· ≠ .info)

/-- The transfers made so far are exact and are those asked for, in order; when the thread has
returned they are all of them. -/
structure ServedExactly (requests : List Request) (w : Watched) (rest : ServerM Unit) : Prop where
  exact : ∀ t ∈ w.done, t.Exact
  in_order : w.done.map Transfer.request <+: transfersOf requests
  complete : rest = .ret () → w.done.map Transfer.request = transfersOf requests

/-- The request is inside the filesystem, and its file holds that range. -/
structure Inside (size : ℕ) (r : Request) : Prop where
  in_range : InRange r
  end_le : r.start + r.count ≤ size

/-- The stdio call runs at the offset of the request it is made for. Calls that transfer no
byte may run anywhere. -/
def AtOffset : Call → Shared × Watched → Prop
  | .fread n, (s, w) =>
    ∀ offset size, w.entry = some (.readFile offset size) → 0 < n → s.fp.pos = offset.toNat
  | .fwrite bytes, (s, w) =>
    ∀ offset payload, w.entry = some (.writeFile offset payload) → bytes ≠ [] →
      s.fp.pos = offset.toNat
  | _, _ => True

theorem changesOnly_patch {p : ℕ} {d before : List UInt8} (h : p + d.length ≤ before.length) :
    ChangesOnly p d before (patch 0 before p d) := by
  have hlen := length_patch_within 0 h
  constructor
  · exact hlen
  · exact slice_patch_self 0 h
  · intro a ha
    by_cases hl : a < before.length
    · have himg : image 0 (patch 0 before p d) a = image 0 before a := by
        rw [image_patch, store_outside _ p d (by omega)]
      rw [image_apply 0 (by omega), image_apply 0 hl] at himg
      rw [List.getElem?_eq_getElem (by omega), List.getElem?_eq_getElem hl, himg]
    · rw [List.getElem?_eq_none (by omega), List.getElem?_eq_none (by omega)]

/-! ### The programs of the requests -/

/-- What `processRequest` goes on with once it has read its command byte. -/
def requestProgram (addr : Mem) : Request → ServerM Unit
  | .info => do
    sendInfo
    updateScreen infoCol
  | .read offset size => do
    readFile offset size
    updateScreen readCol
  | .write offset payload => do
    writeFile (fun i => addr (5 + i)) offset (UInt32.ofNat payload.length)
    updateScreen writeCol

theorem processRequest_frame (m : Mem) {r : Request} (hf : r.frame.length < 2 ^ 32) :
    processRequest (store m 0 r.frame) (UInt32.ofNat r.frame.length) =
      .call (.enter (.processRequest
        (load (store m 0 r.frame) 0 (UInt32.ofNat r.frame.length).toNat)))
        fun _ => requestProgram (store m 0 r.frame) r := by
  rw [processRequest, perform_bind]
  congr
  funext _
  have hd := decode_frame r
  cases r with
  | info => rfl
  | read offset size =>
    have hlen : (Request.read offset size).frame.length = 9 := by simp [Request.frame]
    have hop := store_head m (f := (Request.read offset size).frame) rfl
    rw [decode, if_neg (by simp [Request.frame, sawaInfo, sawaRead]),
      if_pos ⟨rfl, hlen.ge⟩] at hd
    injection hd with hd
    injection hd with hoffset hsize
    rw [if_neg (by rw [hop]; decide), if_pos hop, wordAt_store m (by omega), hoffset,
      wordAt_store m (by omega), hsize]
    rfl
  | write offset payload =>
    have hlen : (Request.write offset payload).frame.length = 5 + payload.length := by
      simp [Request.frame]
      omega
    have hop := store_head m (f := (Request.write offset payload).frame) rfl
    rw [decode, if_neg (by simp [Request.frame, sawaInfo, sawaWrite]),
      if_neg (by simp [Request.frame, sawaRead, sawaWrite]), if_pos ⟨rfl, by omega⟩] at hd
    injection hd with hd
    injection hd with hoffset hpayload
    rw [if_neg (by rw [hop]; decide), if_neg (by rw [hop]; decide), if_pos hop,
      wordAt_store m (by omega), hoffset, write_size (by omega) hf, hpayload]
    rfl

theorem payload_at (m : Mem) (offset : UInt32) {payload : List UInt8}
    (hp : payload.length < 2 ^ 32) :
    load (fun i => store m 0 (Request.write offset payload).frame (5 + i)) 0
      (UInt32.ofNat payload.length).toNat = payload := by
  have hdrop : (Request.write offset payload).frame.drop 5 = payload := by simp [Request.frame]
  have hload := write_payload m (f := (Request.write offset payload).frame)
    (by simp [Request.frame])
  rw [hdrop, ← toNat_ofNat hp] at hload
  rwa [load_shift]

/-- With a request that passes the check only the stdio calls are left, and the reply. -/
theorem readFile_accepted {offset size : UInt32} (h : Accepted offset size) :
    readFile offset size =
      .call (.enter (.readFile offset size)) fun _ =>
        .call (.fseek offset.toNat) fun _ =>
          .call (.alloc size.toNat) fun buffer =>
            .call (.fread size.toNat) fun got =>
              .call (.write (load (store buffer 0 got) 0 size.toNat)) .ret := by
  rw [readFile, checkValidRequest_accepted h]
  rfl

theorem writeFile_accepted {addr : Mem} {offset size : UInt32} (h : Accepted offset size) :
    writeFile addr offset size =
      .call (.enter (.writeFile offset (load addr 0 size.toNat))) fun _ =>
        .call (.fseek offset.toNat) fun seek =>
          if seek ≥ 0 then
            .call (.fwrite (load addr 0 size.toNat)) fun _ =>
              .call .sync fun _ => .call (.write [sawaMsgOk]) .ret
          else .call (.write [sawaMsgErr]) .ret := by
  rw [writeFile, checkValidRequest_accepted h]
  rfl

/-! ### Each thread alone -/

section Safety
variable {α : Type} {size : ℕ} {asked left : List Request} {w w' : Watched}

/-- The file never gets shorter. -/
def Holds (size : ℕ) (s : Shared) : Prop := size ≤ s.fp.contents.length

/-- Of the requests asked for, those in `left` are still to be served. -/
structure Upto (asked left : List Request) (w : Watched) : Prop where
  exact : ∀ t ∈ w.done, t.Exact
  split : transfersOf asked = w.done.map Transfer.request ++ transfersOf left

def PartWay (asked : List Request) (w : Watched) : Prop := ∃ left, Upto asked left w

/-- The program serves the requests that come before `left`. -/
abbrev Serves (size : ℕ) (asked left : List Request) (p : ServerM α) (w : Watched) :
    Prop :=
  Safe watchedHandler (Holds size) AtOffset (PartWay asked) (fun _ w' => Upto asked left w') p w

theorem Upto.of_done (h : Upto asked left w) (hd : w'.done = w.done) : Upto asked left w' := by
  constructor
  · rw [hd]
    exact h.exact
  · rw [hd]
    exact h.split

theorem Upto.transfer {t : Transfer} (h : Upto asked (t.request :: left) w) (ht : t.Exact)
    (hd : w'.done = w.done ++ [t]) (hr : t.request ≠ .info) : Upto asked left w' := by
  constructor
  · intro u hu
    rw [hd] at hu
    rcases List.mem_append.mp hu with hu | hu
    · exact h.exact u hu
    · rwa [List.mem_singleton.mp hu]
  · rw [hd, h.split]
    simp [transfersOf, hr]

theorem Upto.info (h : Upto asked (.info :: left) w) : Upto asked left w :=
  ⟨h.exact, h.split⟩

theorem holds_call (e : Call) {s : Shared} (hs : Holds size s) :
    Holds size (watchedHandler e (s, w)).2.1 := by
  cases e with
  | fwrite bytes => exact hs.trans (length_le_length_patch 0 _ _ bytes)
  | _ => exact hs

theorem serves_call {before : List Request} {e : Call} {k : Answer e → ServerM α}
    (hw : Upto asked before w)
    (hk : ∀ s, Holds size s → AtOffset e (s, w) →
      Serves size asked left (k (watchedHandler e (s, w)).1) (watchedHandler e (s, w)).2.2) :
    Serves size asked left (.call e k) w :=
  safe_call ⟨before, hw⟩ (fun _ hs _ => holds_call e hs) hk

theorem Inside.accepted_read {offset n : UInt32} (h : Inside size (.read offset n)) :
    Accepted offset n := by
  have hr : offset.toNat + n.toNat ≤ capacity := h.in_range
  have hcap := capacity_eq
  rw [accepted_iff, Nat.mod_eq_of_lt (by omega)]
  exact hr

theorem Inside.payload_lt {offset : UInt32} {payload : List UInt8}
    (h : Inside size (.write offset payload)) : payload.length < 2 ^ 32 := by
  have hr : offset.toNat + payload.length ≤ capacity := h.in_range
  have hcap := capacity_eq
  omega

theorem Inside.accepted_write {offset : UInt32} {payload : List UInt8}
    (h : Inside size (.write offset payload)) : Accepted offset (UInt32.ofNat payload.length) := by
  have hr : offset.toNat + payload.length ≤ capacity := h.in_range
  have hcap := capacity_eq
  rw [accepted_iff, toNat_ofNat h.payload_lt, Nat.mod_eq_of_lt (by omega)]
  exact hr

theorem serves_updateScreen (idx : Fin 3) (hw : Upto asked left w) :
    Serves size asked left (updateScreen idx) w := by
  apply serves_call hw
  intro s _ _
  have hw' : Upto asked left (watchedHandler (.countRequest idx) (s, w)).2.2 := hw.of_done rfl
  exact safe_ret ⟨left, hw'⟩ hw'

theorem serves_ret {a : α} (hw : Upto asked left w) :
    Serves size asked left (.ret a : ServerM α) w := safe_ret ⟨left, hw⟩ hw

theorem serves_readFile {offset n : UInt32} (hin : Inside size (.read offset n))
    (hw : Upto asked (.read offset n :: left) w) :
    Serves size asked left (readFile offset n) w := by
  rw [readFile_accepted hin.accepted_read]
  refine serves_call hw fun _ _ _ => ?_
  refine serves_call (hw.of_done rfl) fun _ _ _ => ?_
  refine serves_call (hw.of_done rfl) fun s₁ _ _ => ?_
  refine serves_call (hw.of_done rfl) fun s hs hat => ?_
  -- The position is the one sought, so these are the bytes of the range, kept in `seen`.
  have hend : offset.toNat + n.toNat ≤ s.fp.contents.length := hin.end_le.trans hs
  have hgot : s.fp.freadBytes n.toNat = slice s.fp.contents offset.toNat n.toNat := by
    rcases Nat.eq_zero_or_pos n.toNat with hz | hpos
    · simp [FileStream.freadBytes, slice, hz]
    · have hpos' : s.fp.pos = offset.toNat := hat offset n rfl hpos
      rw [FileStream.freadBytes, hpos']
  have hself := load_store_self (s₁.heap 0) 0 (s.fp.freadBytes n.toNat)
  rw [hgot, length_slice hend, ← hgot] at hself
  refine serves_call (hw.of_done rfl) fun _ _ _ => ?_
  apply serves_ret
  apply hw.transfer (t := .read offset n s.fp.contents _)
  · exact ⟨length_load _ _ _, hself.trans hgot⟩
  · rfl
  · simp [Transfer.request]

/-- What `writeFile` goes on with after its seek. -/
theorem serves_written {offset : UInt32} {payload : List UInt8} {c : Conn} {seen : List UInt8}
    {done : List Transfer} (hin : Inside size (.write offset payload))
    (hw : Upto asked (.write offset payload :: left)
      ⟨c, some (.writeFile offset payload), seen, done⟩) :
    Serves size asked left (.call (.fwrite payload) fun _ =>
      .call .sync fun _ => .call (.write [sawaMsgOk]) .ret)
      ⟨c, some (.writeFile offset payload), seen, done⟩ := by
  refine serves_call hw fun s hs hat => ?_
  have hend : offset.toNat + payload.length ≤ s.fp.contents.length := hin.end_le.trans hs
  have hchange : ChangesOnly offset.toNat payload s.fp.contents
      (s.fp.fwrite payload).contents := by
    rcases eq_or_ne payload [] with rfl | hne
    · exact changesOnly_patch hend
    · have hpos : s.fp.pos = offset.toNat := hat offset payload rfl hne
      rw [FileStream.fwrite, hpos]
      exact changesOnly_patch hend
  have hleft : Upto asked left (watchedHandler (.fwrite payload)
      (s, ⟨c, some (.writeFile offset payload), seen, done⟩)).2.2 :=
    hw.transfer (t := .write offset payload s.fp.contents _) hchange rfl
      (by simp [Transfer.request])
  refine serves_call hleft fun _ _ _ => ?_
  refine serves_call (hleft.of_done rfl) fun _ _ _ => ?_
  exact serves_ret (hleft.of_done rfl)

theorem serves_writeFile {addr : Mem} {offset : UInt32} {payload : List UInt8}
    (haddr : load addr 0 (UInt32.ofNat payload.length).toNat = payload)
    (hin : Inside size (.write offset payload))
    (hw : Upto asked (.write offset payload :: left) w) :
    Serves size asked left (writeFile addr offset (UInt32.ofNat payload.length)) w := by
  rw [writeFile_accepted hin.accepted_write, haddr]
  refine serves_call hw fun _ _ _ => ?_
  refine serves_call (hw.of_done rfl) fun _ _ _ => ?_
  exact serves_written hin (hw.of_done rfl)

theorem serves_requestProgram (m : Mem) {r : Request} (hin : Inside size r)
    (hw : Upto asked (r :: left) w) :
    Serves size asked left (requestProgram (store m 0 r.frame) r) w := by
  cases r with
  | info =>
    refine serves_call hw.info fun _ _ _ => ?_
    refine serves_call (hw.info.of_done rfl) fun _ _ _ => ?_
    exact serves_updateScreen infoCol (hw.info.of_done rfl)
  | read offset n =>
    exact safe_bind (serves_readFile hin hw) fun _ _ hw' => serves_updateScreen readCol hw'
  | write offset payload =>
    have haddr := payload_at m offset hin.payload_lt
    exact safe_bind (serves_writeFile haddr hin hw) fun _ _ hw' =>
      serves_updateScreen writeCol hw'

theorem Inside.frame_lt {r : Request} (h : Inside size r) : r.frame.length < 2 ^ 32 := by
  have hr := h.in_range
  have hcap := capacity_eq
  unfold InRange at hr
  cases r <;> simp [Request.frame, Request.start, Request.count] at hr ⊢
  omega

theorem serves_receive {r : Request} (hin : Inside size r) (hw : Upto asked (r :: left) w) :
    Serves size asked left (receive r.frame) w := by
  refine serves_call hw fun s _ _ => ?_
  simp only [Prog.bind, processRequest_frame _ hin.frame_lt]
  refine serves_call (hw.of_done rfl) fun _ _ _ => ?_
  exact serves_requestProgram _ hin (hw.of_done rfl)

theorem serves_serve {rs : List Request} (hin : ∀ r ∈ rs, Inside size r) (hw : Upto asked rs w) :
    Serves size asked [] (serve (frames rs)) w := by
  induction rs generalizing w with
  | nil => exact serves_ret hw
  | cons r rs ih =>
    rcases List.forall_mem_cons.mp hin with ⟨hr, hrs⟩
    exact safe_bind (serves_receive hr hw) fun _ _ hw' => ih hrs hw'

end Safety

/-! ### All threads together -/

theorem allSafe_connections {s : Shared} {c : ι → Conn} {requests : ι → List Request}
    (hin : ∀ i, ∀ r ∈ requests i, Inside s.fp.contents.length r) :
    AllSafe watchedHandler (Holds s.fp.contents.length) AtOffset (fun i => PartWay (requests i))
      (fun i _ w => Upto (requests i) [] w) (connections s c requests) := by
  constructor
  · exact le_rfl
  · intro i
    exact serves_serve (hin i) ⟨by simp [connections], by simp [connections]⟩

/-- In every run whose transfers are made at their offsets, every connection is served exactly. -/
theorem transfers_exact_at_offsets [DecidableEq ι] {s : Shared} {c : ι → Conn}
    {requests : ι → List Request}
    (hin : ∀ i, ∀ r ∈ requests i, Inside s.fp.contents.length r) (order : List ι)
    (hat : (connections s c requests).AllMeet watchedHandler AtOffset order) (i : ι) :
    ServedExactly (requests i) (((connections s c requests).runs watchedHandler order).here i)
      (((connections s c requests).runs watchedHandler order).rest i) := by
  have hsafe := allSafe_runs (allSafe_connections hin) hat
  obtain ⟨left, hpart⟩ := (hsafe.threads i).here
  constructor
  · exact hpart.exact
  · rw [hpart.split]
    exact List.prefix_append _ _
  · intro hret
    have hall := (hsafe.returned hret).split
    simpa [transfersOf] using hall.symm

/-! ### A write between another write's two calls -/

/-- A WRITE of one byte on each of two connections. -/
def twoWrites : Fin 2 → List Request
  | 0 => [.write 0 [1]]
  | 1 => [.write 512 [2]]

def twoConnections (s : Shared) : Threads (Fin 2) Call Answer Unit Shared Watched :=
  connections s (fun _ => newWorld.2) twoWrites

/-- Thread 1 seeks between the seek and the `fwrite` of thread 0. -/
def seekBetween : List (Fin 2) := [0, 0, 0, 0, 1, 1, 1, 1, 0]

theorem inside_twoWrites (i : Fin 2) : ∀ r ∈ twoWrites i, Inside capacity r := by
  intro r hr
  match i with
  | 0 =>
    rcases List.mem_singleton.mp hr with rfl
    exact ⟨by decide, by decide⟩
  | 1 =>
    rcases List.mem_singleton.mp hr with rfl
    exact ⟨by decide, by decide⟩

/-- The calls of a connection with one WRITE. -/
def writeCalls (offset : UInt32) (payload : List UInt8) : ServerM Unit :=
  .call (.alloc (Request.write offset payload).frame.length) fun m =>
    .call (.enter (.processRequest (load (store m 0 (Request.write offset payload).frame) 0
      (UInt32.ofNat (Request.write offset payload).frame.length).toNat))) fun _ =>
      .call (.enter (.writeFile offset payload)) fun _ =>
        .call (.fseek offset.toNat) fun seek =>
          (if seek ≥ 0 then
            .call (.fwrite payload) fun _ => .call .sync fun _ => .call (.write [sawaMsgOk]) .ret
          else .call (.write [sawaMsgErr]) .ret) >>= fun _ => updateScreen writeCol

theorem serve_write {size : ℕ} {offset : UInt32} {payload : List UInt8}
    (hin : Inside size (.write offset payload)) :
    serve (frames [.write offset payload]) = writeCalls offset payload := by
  have hserve : serve (frames [.write offset payload]) =
      receive (Request.write offset payload).frame := Prog.bind_ret _
  rw [hserve]
  unfold receive writeCalls
  rw [perform_bind]
  congr
  funext m
  rw [processRequest_frame _ hin.frame_lt, requestProgram,
    writeFile_accepted hin.accepted_write, payload_at m offset hin.payload_lt]
  rfl

theorem twoConnections_eq (s : Shared) :
    twoConnections s = ⟨s, fun _ => ⟨newWorld.2, none, [], []⟩, fun i => match i with
      | 0 => writeCalls 0 [1]
      | 1 => writeCalls 512 [2]⟩ := by
  unfold twoConnections connections
  congr
  funext i
  match i with
  | 0 => exact serve_write (inside_twoWrites 0 _ List.mem_cons_self)
  | 1 => exact serve_write (inside_twoWrites 1 _ List.mem_cons_self)

theorem done_seekBetween (s : Shared) :
    (((twoConnections s).runs watchedHandler seekBetween).here 0).done =
      [.write 0 [1] s.fp.contents (patch 0 s.fp.contents 512 [1])] := by
  rw [twoConnections_eq]
  rfl

/-- Both threads make their two stdio calls one right after the other. -/
def seekTogether : List (Fin 2) := [0, 1, 0, 1, 0, 1, 0, 0, 1, 1]

theorem seekTogether_at_offsets (s : Shared) :
    (twoConnections s).AllMeet watchedHandler AtOffset seekTogether := by
  rw [twoConnections_eq]
  refine ⟨trivial, trivial, trivial, trivial, trivial, trivial, trivial, ?_, trivial, ?_, trivial⟩
  · rintro _ _ ⟨⟩ _
    rfl
  · rintro _ _ ⟨⟩ _
    rfl

theorem seek_together_exact :
    (twoConnections newWorld.1).AllMeet watchedHandler AtOffset seekTogether ∧
      ServedExactly (twoWrites 0)
        (((twoConnections newWorld.1).runs watchedHandler seekTogether).here 0)
        (((twoConnections newWorld.1).runs watchedHandler seekTogether).rest 0) := by
  have hlen : newWorld.1.fp.contents.length = capacity := length_newFile
  have hat := seekTogether_at_offsets newWorld.1
  exact ⟨hat, transfers_exact_at_offsets (fun i => hlen ▸ inside_twoWrites i) seekTogether hat 0⟩

theorem getElem?_newFile {a : ℕ} (ha : a < capacity) :
    (getFilesystemFile none).contents[a]? = some 0 := by
  have hlen := length_newFile
  have himg := congrFun simulates_new.image_eq a
  rw [image_apply 0 (by omega)] at himg
  rw [List.getElem?_eq_getElem (by omega), himg]
  rfl

/-- The byte of thread 0 lands where thread 1 seeked to. -/
theorem seek_between_not_exact :
    (∀ i, ∀ r ∈ twoWrites i, Inside newWorld.1.fp.contents.length r) ∧
      ¬ ServedExactly (twoWrites 0)
        (((twoConnections newWorld.1).runs watchedHandler seekBetween).here 0)
        (((twoConnections newWorld.1).runs watchedHandler seekBetween).rest 0) := by
  have hlen : newWorld.1.fp.contents.length = capacity := length_newFile
  refine ⟨fun i => hlen ▸ inside_twoWrites i, ?_⟩
  intro h
  have hdone := done_seekBetween newWorld.1
  have hex := h.exact _ (by rw [hdone]; exact List.mem_singleton_self _)
  have hchange : ChangesOnly 0 [1] newWorld.1.fp.contents
    (patch 0 newWorld.1.fp.contents 512 [1]) := hex
  have hcap := capacity_eq
  have hin := hchange.inside
  rw [slice_patch_apart 0 (by simp; omega) (by simp; omega) (by decide)] at hin
  have hzero := getElem?_newFile (a := 0) (by omega)
  have hhead : (slice newWorld.1.fp.contents 0 1).head? = newWorld.1.fp.contents[0]? := by
    simp [slice, List.head?_eq_getElem?]
  have hslice : slice newWorld.1.fp.contents 0 1 = [1] := hin
  have hold : newWorld.1.fp.contents[0]? = some 0 := hzero
  rw [hslice, hold] at hhead
  exact absurd hhead (by decide)

end SawaSharedStream
