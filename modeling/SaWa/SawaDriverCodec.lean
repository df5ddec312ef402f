import SaWa.SawaDriverRun
import SaWa.SawaSegmentation

/-! The driver's encoder against the server's decoder. The messages that the three commands of
`sawa.c` build are framed and parsed by `readData` and `processRequest` into the operations they
were built for. -/
namespace SawaDriverCodec

open EffectProgram RangeStore LittleEndian SawaProtocol SawaServer SawaServerRun SawaFrameLoop
  SawaSegmentation SawaDriver SawaDriverRun

/-- A request with its numbers unbounded. -/
inductive Operation where
  | info
  | read (offset size : ℕ)
  | write (offset : ℕ) (payload : List UInt8)
  deriving DecidableEq, Repr

/-- The operation behind a request of the protocol. -/
def operationOf : Request → Operation
  | .info => .info
  | .read offset size => .read offset.toNat size.toNat
  | .write offset payload => .write offset.toNat payload

/-! ### What the server makes of a frame -/

/-- The functions of the server that carry out a request, with what they are called for. -/
def parsed : Call × World → Option Operation
  | (.enter .sendInfo, _) => some .info
  | (.enter (.readFile offset size), _) => some (.read offset.toNat size.toNat)
  | (.enter (.writeFile offset payload), _) => some (.write offset.toNat payload)
  | _ => none

theorem parsed_readFile (offset size : UInt32) (w : World) :
    observe parsed sysHandler (readFile offset size) w = [.read offset.toNat size.toNat] := by
  rw [readFile, perform_bind, observe_call_some sysHandler parsed rfl,
    observe_checked _ fun _ _ => rfl]
  exact congrArg _ (ite_self _)

theorem parsed_writeFile (addr : Mem) (offset size : UInt32) (w : World) :
    observe parsed sysHandler (writeFile addr offset size) w =
      [.write offset.toNat (load addr 0 size.toNat)] := by
  rw [writeFile, perform_bind, observe_call_some sysHandler parsed rfl,
    observe_checked _ fun _ _ => rfl]
  exact congrArg _ (ite_self _)

/-- A frame that holds the fields of its command is carried out once, as the request it is. -/
theorem parsed_processRequest {addr : Mem} {size : UInt32} {r : Request}
    (hr : decode (load addr 0 size.toNat) = some r) (w : World) :
    observe parsed sysHandler (processRequest addr size) w = [operationOf r] := by
  have haddr := store_load_self addr 0 size.toNat
  have hsize : UInt32.ofNat (load addr 0 size.toNat).length = size := by
    rw [length_load, UInt32.ofNat_toNat]
  have hlen : (load addr 0 size.toNat).length < 2 ^ 32 := by
    rw [length_load]
    exact size.toNat_lt
  generalize load addr 0 size.toNat = f at hr haddr hsize hlen
  subst hsize
  rw [← haddr, processRequest, perform_bind, observe_call_none _ _ rfl]
  unfold decode at hr
  split_ifs at hr with hi hrd hwr
  · cases hr
    simp only [if_pos (store_head addr hi)]
    rfl
  · cases hr
    have hop := store_head addr hrd.1
    have hni : ¬ store addr 0 f 0 = sawaInfo := by rw [hop]; decide
    simp only [if_neg hni, if_pos hop, observe_bind, parsed_readFile]
    rw [wordAt_store addr (by omega), wordAt_store addr (by omega)]
    rfl
  · cases hr
    have hop := store_head addr hwr.1
    have hni : ¬ store addr 0 f 0 = sawaInfo := by rw [hop]; decide
    have hnr : ¬ store addr 0 f 0 = sawaRead := by rw [hop]; decide
    simp only [if_neg hni, if_neg hnr, if_pos hop, observe_bind, parsed_writeFile, load_shift]
    rw [wordAt_store addr (by omega), write_size hwr.2 hlen,
      toNat_ofNat (by rw [List.length_drop]; omega), write_payload addr hwr.2]
    rfl

/-- Where each executed frame holds the fields of its command, the requests carried out are
those of the executed frames. -/
def Parses {α : Type} (p : ServerM α) (w : World) : Prop :=
  ∀ rs : List Request, (observe executed sysHandler p w).map decode = rs.map some →
    observe parsed sysHandler p w = rs.map operationOf

theorem no_requests {rs : List Request}
    (h : ([] : List (List UInt8)).map decode = rs.map some) : [] = rs.map operationOf := by
  rw [List.map_eq_nil_iff.mp h.symm]
  rfl

theorem parses_ret {α : Type} (a : α) (w : World) : Parses (.ret a) w := fun _ h => no_requests h

theorem parses_bind {α β : Type} {p : ServerM α} {f : α → ServerM β} {w : World}
    (hp : Parses p w)
    (hf : Parses (f (run sysHandler p w).1) (run sysHandler p w).2) : Parses (p >>= f) w := by
  intro rs h
  rw [observe_bind, List.map_append] at h
  obtain ⟨rs₁, rs₂, rfl, h₁, h₂⟩ := List.map_eq_append_iff.mp h.symm
  rw [observe_bind, List.map_append, hp rs₁ h₁.symm, hf rs₂ h₂.symm]

theorem parses_processRequest (addr : Mem) (size : UInt32) (w : World) :
    Parses (processRequest addr size) w := by
  intro rs h
  rw [executed_processRequest, List.map_singleton] at h
  obtain ⟨r, rfl, hr⟩ := List.map_eq_singleton_iff.mp h.symm
  exact parsed_processRequest hr.symm w

theorem parses_round (w : World) : Parses (readDataRound ()) w := by
  intro rs h
  rw [readDataRound, executed_frameRound] at h
  rw [readDataRound, observe_frameRound _ _ _ parsed (fun _ _ => rfl) (fun _ _ => rfl)]
  split_ifs at h ⊢
  · exact no_requests h
  · exact no_requests h
  · exact parses_bind (parses_processRequest _ _ _) (parses_ret (Sum.inl ()) _) rs h
  · exact no_requests h

theorem parses_readData (n : ℕ) (w : World) : Parses (readData n) w := by
  induction n generalizing w with
  | zero => exact parses_ret none w
  | succ n ih =>
    refine parses_bind (parses_round w) ?_
    cases (run sysHandler (readDataRound ()) w).1 with
    | inl _ => exact ih _
    | inr b => exact parses_ret (some b) _

/-! ### What the driver encodes -/

/-- A call of one of the commands of `sawa.c`. -/
inductive Command where
  | sendInfo
  | readData (sector nbSectors : UInt64)
  | writeData (sector nbSectors : UInt64) (buffer : Mem)

namespace Command

/-- The message a command builds. -/
def message : Command → List UInt8
  | .sendInfo => infoMessage
  | .readData sector nbSectors => readMessage sector nbSectors
  | .writeData sector nbSectors buffer => writeMessage sector nbSectors buffer

/-- What it is to make the server do. -/
def operation : Command → Operation
  | .sendInfo => .info
  | .readData sector nbSectors => .read (512 * sector.toNat) (512 * nbSectors.toNat)
  | .writeData sector nbSectors buffer =>
    .write (512 * sector.toNat) (load buffer 0 (512 * nbSectors.toNat))

/-- The byte numbers fit the 32-bit fields, and a WRITE the limit on frames. -/
def Fits : Command → Prop
  | .sendInfo => True
  | .readData sector nbSectors => 512 * sector.toNat < 2 ^ 32 ∧ 512 * nbSectors.toNat < 2 ^ 32
  | .writeData sector nbSectors _ =>
    512 * sector.toNat < 2 ^ 32 ∧ 512 * nbSectors.toNat + 5 ≤ 32768

def request : Command → Request
  | .sendInfo => .info
  | .readData sector nbSectors => .read (sectorBytes sector) (sectorBytes nbSectors)
  | .writeData sector nbSectors buffer =>
    .write (sectorBytes sector) (load buffer 0 (sectorBytes nbSectors).toNat)

end Command

theorem toNat_sectorBytes {n : UInt64} (h : 512 * n.toNat < 2 ^ 32) :
    (sectorBytes n).toNat = 512 * n.toNat := by
  rw [sectorBytes, UInt64.toNat_toUInt32, UInt64.toNat_mul]
  show n.toNat * 512 % 2 ^ 64 % 2 ^ 32 = _
  omega

theorem operationOf_request {c : Command} (h : c.Fits) :
    operationOf c.request = c.operation := by
  cases c with
  | sendInfo => rfl
  | readData sector nbSectors =>
    rw [Command.request, operationOf, toNat_sectorBytes h.1, toNat_sectorBytes h.2]
    rfl
  | writeData sector nbSectors buffer =>
    have hn : 512 * nbSectors.toNat + 5 ≤ 32768 := h.2
    rw [Command.request, operationOf, toNat_sectorBytes h.1, toNat_sectorBytes (by omega)]
    rfl

theorem writeMessage_eq {sector nbSectors : UInt64} {buffer : Mem}
    (h : 5 + (sectorBytes nbSectors).toNat < 2 ^ 32) :
    writeMessage sector nbSectors buffer = SawaProtocol.message
      (Request.frame (.write (sectorBytes sector)
        (load buffer 0 (sectorBytes nbSectors).toNat))) := by
  have hlen : sectorBytes nbSectors + 1 + 4 = UInt32.ofNat (Request.frame (.write
      (sectorBytes sector) (load buffer 0 (sectorBytes nbSectors).toNat))).length := by
    apply UInt32.toNat_inj.mp
    have hl : (Request.frame (.write (sectorBytes sector)
        (load buffer 0 (sectorBytes nbSectors).toNat))).length =
        5 + (sectorBytes nbSectors).toNat := by
      simp only [Request.frame, List.length_cons, List.length_append, length_wordBytes,
        length_load]
      omega
    rw [hl, toNat_ofNat h, UInt32.toNat_add, UInt32.toNat_add]
    show (((sectorBytes nbSectors).toNat + 1) % 2 ^ 32 + 4) % 2 ^ 32 = _
    omega
  rw [writeMessage, SawaProtocol.message, hlen]
  rfl

/-- The message of a command is the documented one of its request. -/
theorem message_request {c : Command} (h : c.Fits) :
    c.message = SawaProtocol.message c.request.frame := by
  cases c with
  | sendInfo => rfl
  | readData sector nbSectors => rfl
  | writeData sector nbSectors buffer =>
    have hn : 512 * nbSectors.toNat + 5 ≤ 32768 := h.2
    exact writeMessage_eq (by rw [toNat_sectorBytes (by omega)]; omega)

theorem request_frame_length {c : Command} (h : c.Fits) : c.request.frame.length ≤ 32768 := by
  cases c with
  | sendInfo => decide
  | readData sector nbSectors => simp [Command.request, Request.frame]
  | writeData sector nbSectors buffer =>
    have hn : 512 * nbSectors.toNat + 5 ≤ 32768 := h.2
    simp only [Command.request, Request.frame, List.length_cons, List.length_append,
      length_wordBytes, length_load]
    rw [toNat_sectorBytes (by omega)]
    omega

/-- The server carries out the requests of a stream, one for one, and is through with the stream
then. -/
theorem requests_parsed {rs : List Request} (hlen : ∀ r ∈ rs, r.frame.length ≤ 32768) {w : World}
    (hin : w.2.input = stream (rs.map Request.frame)) (ha : Ample w.2) {n : ℕ}
    (hn : rs.length < n) :
    observe parsed sysHandler (readData n) w = rs.map operationOf ∧
      (run sysHandler (readData n) w).1 = some .returned := by
  have hf : ∀ f ∈ rs.map Request.frame, f ≠ [] ∧ f.length ≤ 32768 := by
    intro f hm
    obtain ⟨r, hr, rfl⟩ := List.mem_map.mp hm
    exact ⟨r.frame_ne_nil, hlen r hr⟩
  have hd := delivered_of_wholeReads hf hin
    (wholeReads_of_ample fun k => hin ▸ ha k) (by rwa [List.length_map])
  refine ⟨?_, hd.returned⟩
  apply parses_readData n w rs
  rw [hd.executed_eq, List.map_map]
  exact List.map_congr_left fun r _ => decode_frame r

/-- The server carries out exactly the operations of the commands, one for one, and is through
with the stream then. -/
theorem commands_parsed (cs : List Command) (hfit : ∀ c ∈ cs, c.Fits) {w : World}
    (hin : w.2.input = (cs.map Command.message).flatten)
    (ha : Ample w.2) {n : ℕ} (hn : cs.length < n) :
    observe parsed sysHandler (readData n) w = cs.map Command.operation ∧
      (run sysHandler (readData n) w).1 = some .returned := by
  have hstream : w.2.input = stream ((cs.map Command.request).map Request.frame) := by
    rw [hin, stream, List.map_map, List.map_map]
    exact congrArg List.flatten (List.map_congr_left fun c hc => message_request (hfit c hc))
  have hlen : ∀ r ∈ cs.map Command.request, r.frame.length ≤ 32768 := by
    intro r hr
    obtain ⟨c, hc, rfl⟩ := List.mem_map.mp hr
    exact request_frame_length (hfit c hc)
  obtain ⟨hp, hret⟩ := requests_parsed hlen hstream ha (by rwa [List.length_map])
  refine ⟨?_, hret⟩
  rw [hp, List.map_map]
  exact List.map_congr_left fun c hc => operationOf_request (hfit c hc)

/-- Asking for the size, writing the last two sectors and reading them back. -/
def lastSectors (buffer : Mem) : List Command :=
  [.sendInfo, .writeData 2046 2 buffer, .readData 2046 2]

theorem lastSectors_parsed :
    (∀ c ∈ lastSectors fun _ => 7, c.Fits) ∧
      ∀ w : World, w.2.input = ((lastSectors fun _ => 7).map Command.message).flatten → Ample w.2 →
        observe parsed sysHandler (readData 4) w =
            [.info, .write 1047552 (load (fun _ => 7) 0 1024), .read 1047552 1024] ∧
          (run sysHandler (readData 4) w).1 = some .returned := by
  have hfit : ∀ c ∈ lastSectors fun _ => 7, c.Fits := by
    intro c hc
    simp only [lastSectors, List.mem_cons, List.not_mem_nil, or_false] at hc
    rcases hc with rfl | rfl | rfl
    · trivial
    · exact ⟨by decide, by decide⟩
    · exact ⟨by decide, by decide⟩
  exact ⟨hfit, fun w hin ha => commands_parsed _ hfit hin ha (by decide)⟩

end SawaDriverCodec
