import SaWa.SawaCutStream
import SaWa.SawaDriverCodec

/-! What the driver's success says about the server's file. `sawa_write_data` ignores what
`tcp_client_send` returns and does not read the server's answer, so the data is in the file only
when the whole message was sent and is short enough for the server to take it. -/
namespace SawaDriverWrites

open EffectProgram RangeStore LittleEndian SawaProtocol SawaServer SawaServerRun
  SawaFrameLoop SawaSegmentation SawaCutStream SawaDriver SawaDriverRun SawaDriverCodec

/-- Once the server has read these bytes to their end its file holds the buffer at the sector,
whatever the file and the memory of the server held before. -/
def Stored (sector nbSectors : UInt64) (buffer : Mem) (wire : List UInt8) : Prop :=
  ∀ (w : World) (n : ℕ), w.1.fp.contents.length = capacity → w.2.input = wire → Ample w.2 →
    wire.length < n →
    slice (run sysHandler (readData n) w).2.1.fp.contents (512 * sector.toNat)
      (512 * nbSectors.toNat) = load buffer 0 (512 * nbSectors.toNat)

section Message
variable {sector nbSectors : UInt64} {buffer : Mem}

/-- The frame of a write of whole sectors. -/
def writeFrame (sector nbSectors : UInt64) (buffer : Mem) : List UInt8 :=
  Request.frame (.write (sectorBytes sector) (load buffer 0 (sectorBytes nbSectors).toNat))

theorem decode_writeFrame : decode (writeFrame sector nbSectors buffer) =
    some (.write (sectorBytes sector) (load buffer 0 (sectorBytes nbSectors).toNat)) :=
  decode_frame _

theorem length_writeFrame (sector : UInt64) (buffer : Mem) (h : nbSectors.toNat ≤ 2048) :
    (writeFrame sector nbSectors buffer).length = 5 + 512 * nbSectors.toNat := by
  rw [writeFrame, Request.frame, List.length_cons, List.length_append, length_wordBytes,
    length_load, toNat_sectorBytes (by omega)]
  omega

theorem writeMessage_frame (h : nbSectors.toNat ≤ 2048) :
    writeMessage sector nbSectors buffer = message (writeFrame sector nbSectors buffer) :=
  writeMessage_eq (by rw [toNat_sectorBytes (by omega)]; omega)

theorem length_write (h : nbSectors.toNat ≤ 2048) :
    (writeMessage sector nbSectors buffer).length = 9 + 512 * nbSectors.toNat := by
  rw [writeMessage_frame h, length_message, length_writeFrame _ _ h]
  omega

/-- A sector range of the filesystem passes the check of the server. -/
theorem accepted_sectors (hs : sector.toNat + nbSectors.toNat ≤ 2048) :
    Accepted (sectorBytes sector) (sectorBytes nbSectors) := by
  rw [accepted_iff, toNat_sectorBytes (by omega), toNat_sectorBytes (by omega), capacity_eq]
  omega

end Message

/-! ### Whole messages -/

theorem stored_whole {sector nbSectors : UInt64} {buffer : Mem}
    (hs : sector.toNat + nbSectors.toNat ≤ 2048) (hn : nbSectors.toNat ≤ 63) :
    Stored sector nbSectors buffer (writeMessage sector nbSectors buffer) := by
  intro w n hlen hin ha hrounds
  have hle : nbSectors.toNat ≤ 2048 := by omega
  have hoff := toNat_sectorBytes (n := sector) (by omega)
  have hsize := toNat_sectorBytes (n := nbSectors) (by omega)
  have hlf := length_writeFrame sector buffer hle
  have hstream : w.2.input = stream [writeFrame sector nbSectors buffer] := by
    rw [hin, writeMessage_frame hle, stream_cons]
    exact (List.append_nil _).symm
  have hf : ∀ f ∈ [writeFrame sector nbSectors buffer], f ≠ [] ∧ f.length ≤ 32768 := by
    intro f hf
    rw [List.mem_singleton.mp hf]
    exact ⟨Request.frame_ne_nil _, by omega⟩
  have hd : Delivered [writeFrame sector nbSectors buffer] n w := by
    refine delivered_of_wholeReads hf hstream (wholeReads_of_ample fun k => hstream ▸ ha k) ?_
    rw [length_write hle] at hrounds
    show 1 < n
    omega
  have hacc : Accepted (sectorBytes sector)
      (UInt32.ofNat (load buffer 0 (sectorBytes nbSectors).toNat).length) := by
    rw [length_load, UInt32.ofNat_toNat]
    exact accepted_sectors hs
  have hself := slice_patch_self 0 (l := w.1.fp.contents) (p := 512 * sector.toNat)
    (d := load buffer 0 (512 * nbSectors.toNat))
    (by rw [length_load, hlen, capacity_eq]; omega)
  rw [length_load] at hself
  rw [hd.contents_eq, after_cons, after_nil, run_receive_decode decode_writeFrame
    (by rw [hlf]; omega), contents_requestEffect, contentsAfter, if_pos hacc, hoff,
    hsize]
  exact hself

/-! ### What goes wrong otherwise -/

/-- A file that differs from the buffer in its first byte, everywhere. -/
def otherFile (buffer : Mem) : FileStream := ⟨List.replicate capacity (buffer 0 + 1), 0⟩

/-- Old bytes for which a cut WRITE frame is refused, or its last byte differs from the buffer. -/
def oldBytes (buffer : Mem) : Mem := fun i => if i < 5 then 0x7F else buffer (i - 5) + 1

/-- A server whose file and memory hold none of the data that is on the way. -/
def otherWorld (buffer : Mem) (wire : List UInt8) : World :=
  (⟨otherFile buffer, fun _ => oldBytes buffer, fun _ => 0⟩,
    ⟨wire, fun _ => wire.length, [], fun _ => 0⟩)

theorem otherFile_ne {buffer : Mem} {p n : ℕ} (hn : 0 < n) :
    slice (otherFile buffer).contents p n ≠ load buffer 0 n := by
  intro h
  have hz : 0 < (load buffer 0 n).length := by rwa [length_load]
  have h0 := List.getElem_of_eq h.symm hz
  rw [getElem_load] at h0
  simp [otherFile, slice] at h0

theorem not_stored_of_unchanged {sector nbSectors : UInt64} {buffer : Mem} {wire : List UInt8}
    (hn : 0 < nbSectors.toNat)
    (h : (run sysHandler (readData (wire.length + 1)) (otherWorld buffer wire)).2.1.fp.contents =
      (otherFile buffer).contents) : ¬ Stored sector nbSectors buffer wire := by
  intro hst
  have hst := hst (otherWorld buffer wire) (wire.length + 1) (List.length_replicate) rfl
    (fun _ => le_rfl) (Nat.lt_succ_self _)
  rw [h] at hst
  exact otherFile_ne (by omega) hst

theorem not_stored_of_ignored {sector nbSectors : UInt64} {buffer : Mem} {wire : List UInt8}
    (hn : 0 < nbSectors.toNat)
    (h : Ignored serverLoop wire) : ¬ Stored sector nbSectors buffer wire := by
  obtain ⟨-, c, hrun⟩ := run_ignored h (w := otherWorld buffer wire) rfl (fun _ => le_rfl)
    (Nat.lt_succ_self _)
  rw [serverLoop_program] at hrun
  exact not_stored_of_unchanged hn (by rw [hrun]; rfl)

/-- Only an accepted WRITE changes the file. -/
theorem contents_processEffect (addr : Mem) (size : UInt32) (w : World) :
    (processEffect addr size w).1.fp.contents =
      if addr 0 = sawaWrite ∧ Accepted (wordAt addr 1) (size - 5) then
        patch 0 w.1.fp.contents (wordAt addr 1).toNat (load addr 5 (size - 5).toNat)
      else w.1.fp.contents := by
  rw [processEffect]
  by_cases hi : addr 0 = sawaInfo
  · rw [if_pos hi, if_neg (by rw [hi]; exact fun h => absurd h.1 (by decide))]
    rfl
  by_cases hr : addr 0 = sawaRead
  · rw [if_neg hi, if_pos hr, if_neg (by rw [hr]; exact fun h => absurd h.1 (by decide)),
      readFileEffect]
    split_ifs <;> rfl
  by_cases hw : addr 0 = sawaWrite
  · rw [if_neg hi, if_neg hr, if_pos hw, writeFileEffect]
    simp only [hw, true_and]
    split_ifs <;> rfl
  · rw [if_neg hi, if_neg hr, if_neg hw, if_neg fun h => hw h.1]

theorem contents_processEffect_congr (addr : Mem) (size : UInt32) {w w' : World}
    (h : w.1.fp.contents = w'.1.fp.contents) :
    (processEffect addr size w).1.fp.contents = (processEffect addr size w').1.fp.contents := by
  rw [contents_processEffect, contents_processEffect, h]

/-- An offset with this highest byte is past the end of the filesystem. -/
theorem not_accepted_high {addr : Mem} {size : UInt32} (h4 : addr 4 = 0x7F)
    (hs : size.toNat ≤ 32768) : ¬ Accepted (wordAt addr 1) size := by
  have hv : (wordAt addr 1).toNat = (addr 1).toNat + 256 * ((addr 2).toNat + 256 *
      ((addr 3).toNat + 256 * (0x7F + 256 * 0))) := by
    have hl : load addr 1 4 = [addr 1, addr 2, addr 3, addr 4] := rfl
    have h1 := (addr 1).toNat_lt
    have h2 := (addr 2).toNat_lt
    have h3 := (addr 3).toNat_lt
    rw [wordAt, wordOf, hl, h4, toNat_ofNat]
    · rfl
    · simp only [value]
      show _ + 256 * (_ + 256 * (_ + 256 * (0x7F + 256 * 0))) < _
      omega
  have h1 := (addr 1).toNat_lt
  have h2 := (addr 2).toNat_lt
  have h3 := (addr 3).toNat_lt
  rw [accepted_iff, capacity_eq]
  omega

theorem input_processEffect (addr : Mem) (size : UInt32) (w : World) :
    (processEffect addr size w).2.input = w.2.input :=
  congrArg (fun w => w.2.input) (processEffect_socket addr size w.2.input w.2.cut w)

/-- A body that did not arrive whole is executed with old bytes in place of its end. -/
theorem contents_cut_message {f : List UInt8} {k : ℕ} (hk : k < f.length)
    (hlim : f.length ≤ 32768) {w : World}
    (hin : w.2.input = wordBytes (UInt32.ofNat f.length) ++ f.take k) (ha : Ample w.2) {n : ℕ}
    (hn : 1 < n) :
    (run sysHandler (readData n) w).2.1.fp.contents =
      (processEffect (store (w.1.heap 0) 0 (f.take k)) (UInt32.ofNat f.length)
        w).1.fp.contents := by
  obtain ⟨n, rfl⟩ : ∃ m, n = m + 2 := ⟨n - 2, by omega⟩
  have hf : f.length < 2 ^ 32 := by omega
  have hlen4 := length_wordBytes (UInt32.ofNat f.length)
  have hhead : w.2.readBytes 4 = wordBytes (UInt32.ofNat f.length) := by
    rw [ha.readBytes_eq, hin, ← hlen4, List.take_left]
  have hrest : (w.2.afterRead 4).input = f.take k := by
    rw [input_afterRead ha (by rw [hin, List.length_append, hlen4]; omega), hin]
    nth_rewrite 1 [← hlen4]
    exact List.drop_left
  have hbody : (w.2.afterRead 4).readBytes f.length = f.take k := by
    rw [(ha.afterRead 4).readBytes_eq, hrest, List.take_take, Nat.min_eq_right hk.le]
  have hlong : serverLoop.tooLong (UInt32.ofNat f.length) = false :=
    FrameLoop.tooLong_within hlim
  have hpos : serverLoop.positive (UInt32.ofNat f.length) = true :=
    FrameLoop.positive_within hlim (by omega)
  let w' := processEffect (store (w.1.heap 0) 0 (f.take k)) (UInt32.ofNat f.length)
    (afterAlloc (w.1, (w.2.afterRead 4).afterRead f.length))
  have hround : run sysHandler (serverLoop.round ()) w = (.inl (), w') := by
    rw [FrameLoop.round, run_frameRound, hhead, wordOf_wordBytes, hlen4, hlong, hpos,
      toNat_ofNat hf, hbody]
    exact serverLoop.run_process _ _ _ (by rw [toNat_ofNat hf]; omega)
  have hend : w'.2.input = [] := by
    have hlt : (f.take k).length ≤ k := by simp
    show (processEffect _ _ _).2.input = []
    rw [input_processEffect]
    show (w.2.afterRead 4).input.drop ((w.2.afterRead 4).readBytes f.length).length = []
    rw [hbody, hrest, List.drop_length]
  obtain ⟨-, c, hrun⟩ := run_ignored (L := serverLoop) (s := []) (.short (by decide)) hend
    (fun j => by rw [hend]; exact Nat.zero_le _) (n := n + 1) (Nat.succ_pos n)
  have hgo : run sysHandler (readData (n + 2)) w = run sysHandler (serverLoop.program (n + 1)) w' :=
    run_loop_next _ _ hround
  rw [hgo, hrun]
  exact contents_processEffect_congr _ _ rfl

/-- Data whose last byte is an old one is not the buffer. -/
theorem load_cut_ne {buffer : Mem} {f : List UInt8} {j n : ℕ} (hj : j < 5 + n) (hn : 0 < n) :
    load (store (oldBytes buffer) 0 (f.take j)) 5 n ≠ load buffer 0 n := by
  intro h
  have hi : n - 1 < (load (store (oldBytes buffer) 0 (f.take j)) 5 n).length := by
    rw [length_load]
    omega
  have hlast := List.getElem_of_eq h hi
  rw [getElem_load, getElem_load, store_outside _ _ _ (by rw [List.length_take]; omega),
    oldBytes, if_neg (by omega), show 5 + (n - 1) - 5 = 0 + (n - 1) by omega] at hlast
  exact absurd hlast (by simp)

/-- Five bytes of the frame bring the operation and the offset, whatever the block held. -/
theorem header_cut {sector nbSectors : UInt64} {buffer m : Mem} {j : ℕ} (h5 : 5 ≤ j)
    (hj : j < (writeFrame sector nbSectors buffer).length) :
    store m 0 ((writeFrame sector nbSectors buffer).take j) 0 = sawaWrite ∧
      wordAt (store m 0 ((writeFrame sector nbSectors buffer).take j)) 1 = sectorBytes sector := by
  constructor
  · rw [store_inside _ _ _ le_rfl (by rw [List.length_take]; omega)]
    simp [writeFrame, Request.frame]
  · rw [wordAt_store _ (by rw [List.length_take]; omega)]
    have hsl : slice ((writeFrame sector nbSectors buffer).take j) 1 4 =
        wordBytes (sectorBytes sector) := by
      rw [slice, List.drop_take, List.take_take, Nat.min_eq_left (by omega)]
      simp [writeFrame, Request.frame]
    rw [hsl, wordOf_wordBytes]

/-- A write of which the length and a part of the frame arrive is not stored. -/
theorem not_stored_cut {sector nbSectors : UInt64} {buffer : Mem} {j : ℕ}
    (hs : sector.toNat + nbSectors.toNat ≤ 2048) (hn : 0 < nbSectors.toNat)
    (h63 : nbSectors.toNat ≤ 63) (hj : j < (writeFrame sector nbSectors buffer).length) :
    ¬ Stored sector nbSectors buffer (wordBytes
      (UInt32.ofNat (writeFrame sector nbSectors buffer).length) ++
        (writeFrame sector nbSectors buffer).take j) := by
  have hlf := length_writeFrame sector buffer (show nbSectors.toNat ≤ 2048 by omega)
  have hoff := toNat_sectorBytes (n := sector) (by omega)
  have hsize := toNat_sectorBytes (n := nbSectors) (by omega)
  have hsz : (UInt32.ofNat (writeFrame sector nbSectors buffer).length - 5).toNat =
      512 * nbSectors.toNat := by
    rw [write_size (by omega) (by omega), toNat_ofNat (by rw [List.length_drop]; omega),
      List.length_drop]
    omega
  generalize hwire : wordBytes _ ++ _ = wire
  have hwl : 4 ≤ wire.length := by
    rw [← hwire, List.length_append, length_wordBytes]
    omega
  have hrun := contents_cut_message hj (by omega) (w := otherWorld buffer wire)
    (by rw [hwire]; rfl) (fun _ => le_rfl) (n := wire.length + 1) (by omega)
  rw [contents_processEffect] at hrun
  have hheap : (otherWorld buffer wire).1.heap 0 = oldBytes buffer := rfl
  rw [hheap] at hrun
  by_cases h5 : j < 5
  · have h4 : store (oldBytes buffer) 0 ((writeFrame sector nbSectors buffer).take j) 4 = 0x7F := by
      rw [store_outside _ _ _ (by rw [List.length_take]; omega)]
      rfl
    rw [if_neg fun h => not_accepted_high h4 (by rw [hsz]; omega) h.2] at hrun
    exact not_stored_of_unchanged hn hrun
  · intro hst
    obtain ⟨hop, hword⟩ := header_cut (m := oldBytes buffer) (by omega) hj
    have hacc : Accepted (sectorBytes sector)
        (UInt32.ofNat (writeFrame sector nbSectors buffer).length - 5) := by
      rw [UInt32.toNat_inj.mp (hsz.trans hsize.symm)]
      exact accepted_sectors hs
    rw [if_pos ⟨hop, by rw [hword]; exact hacc⟩, hword, hoff, hsz] at hrun
    have hst := hst (otherWorld buffer wire) (wire.length + 1) List.length_replicate rfl
      (fun _ => le_rfl) (Nat.lt_succ_self _)
    have hcap : (otherWorld buffer wire).1.fp.contents.length = capacity := List.length_replicate
    have hself := slice_patch_self 0 (l := (otherWorld buffer wire).1.fp.contents)
      (p := 512 * sector.toNat) (d := load (store (oldBytes buffer) 0
        ((writeFrame sector nbSectors buffer).take j)) 5 (512 * nbSectors.toNat))
      (by rw [length_load, hcap, capacity_eq]; omega)
    rw [length_load] at hself
    rw [hrun, hself] at hst
    exact load_cut_ne (by omega) (by omega) hst

/-- A write that the driver reports as successful is in the file exactly when it writes nothing,
or when it is of 63 sectors at most and the results of `kernel_sendmsg` carry the message. -/
theorem write_success_stored_iff {rounds : ℕ} {sector nbSectors : UInt64} {buffer : Mem}
    {s s' : Net} (hs : sector.toNat + nbSectors.toNat ≤ 2048) (hnew : s.wire = [])
    (h : run netHandler (sawaWriteData rounds sector nbSectors buffer) s = (some 0, s')) :
    Stored sector nbSectors buffer s'.wire ↔
      nbSectors.toNat = 0 ∨
        nbSectors.toNat ≤ 63 ∧ Carries s.sends (9 + 512 * nbSectors.toNat) := by
  have hle : nbSectors.toNat ≤ 2048 := by omega
  have hlf := length_writeFrame sector buffer hle
  obtain ⟨-, sends, k, hk, hiff, rfl⟩ :=
    sent_sawaWriteData (by rw [toNat_sectorBytes (by omega)]; omega) h
  rw [length_write hle] at hk hiff
  have hwhole : k = 9 + 512 * nbSectors.toNat ↔ Carries s.sends (9 + 512 * nbSectors.toNat) := by
    rw [← hiff _ le_rfl]
    exact ⟨Eq.ge, hk.antisymm⟩
  rw [← hwhole]
  show Stored sector nbSectors buffer (s.wire ++ (writeMessage sector nbSectors buffer).take k) ↔ _
  rw [hnew, List.nil_append]
  by_cases hn : nbSectors.toNat = 0
  · refine iff_of_true (fun w n _ _ _ _ => ?_) (.inl hn)
    rw [hn]
    rfl
  have hpos : 0 < nbSectors.toNat := by omega
  rw [or_iff_right hn]
  by_cases h4 : k < 4
  · exact iff_of_false
      (not_stored_of_ignored hpos (.short (by rw [List.length_take]; omega))) (by omega)
  have hwire : (writeMessage sector nbSectors buffer).take k =
      wordBytes (UInt32.ofNat (writeFrame sector nbSectors buffer).length) ++
        (writeFrame sector nbSectors buffer).take (k - 4) := by
    rw [writeMessage_frame hle, message, List.take_append, length_wordBytes,
      List.take_of_length_le (by rw [length_wordBytes]; omega)]
  by_cases h63 : nbSectors.toNat ≤ 63
  · by_cases hall : k = 9 + 512 * nbSectors.toNat
    · refine iff_of_true ?_ ⟨h63, hall⟩
      rw [List.take_of_length_le (by rw [length_write hle]; omega)]
      exact stored_whole hs h63
    · rw [hwire]
      exact iff_of_false (not_stored_cut hs hpos h63 (by omega)) fun hc => hall hc.2
  · refine iff_of_false (not_stored_of_ignored hpos (.refused ?_)) fun hc => h63 hc.1
    have hhead : ((writeMessage sector nbSectors buffer).take k).take 4 =
        wordBytes (UInt32.ofNat (writeFrame sector nbSectors buffer).length) := by
      rw [hwire]
      nth_rewrite 1 [← length_wordBytes (UInt32.ofNat (writeFrame sector nbSectors buffer).length)]
      exact List.take_left
    rw [hhead, wordOf_wordBytes, serverLoop.tooLong_eq _ (show _ < 2 ^ 32 by omega)]
    exact decide_eq_true (show 32768 < _ by omega)

/-- A connection that is made, with these results of `kernel_sendmsg`. -/
def netOf (sends : ℕ → ℤ) : Net :=
  ⟨0, -einprogress, sends, fun _ => .error 104, [], [], fun _ => 0, 2048⟩

/-- A write of the last sector that the kernel takes at once. -/
theorem last_sector_stored :
    Carries (netOf fun _ => 521).sends 521 ∧
      Stored 2047 1 (fun _ => 7)
        (run netHandler (sawaWriteData 1 2047 1 fun _ => 7) (netOf fun _ => 521)).2.wire := by
  have hc : Carries (netOf fun _ => 521).sends 521 := ⟨1, by decide, by decide⟩
  have hrun := run_sawaWriteData_at_once 2047 (fun _ => 7) (s := netOf fun _ => 521)
    (show Connects _ by decide) (show 9 + (sectorBytes 1).toNat < _ by decide) (by decide) 0
  have hlen : 9 + 512 * (1 : UInt64).toNat = 521 := by decide
  have hst := write_success_stored_iff (by decide) rfl hrun
  rw [hrun]
  exact ⟨hc, hst.mpr (.inr ⟨by decide, hlen ▸ hc⟩)⟩

/-- A write whose first `kernel_sendmsg` fails, and one of 64 sectors of which every byte is
sent, return 0 and are not stored. -/
theorem write_success_not_stored :
    ((run netHandler (sawaWriteData 1 0 1 fun _ => 7) (netOf fun _ => -32)).1 = some 0 ∧
      ¬ Stored 0 1 (fun _ => 7)
        (run netHandler (sawaWriteData 1 0 1 fun _ => 7) (netOf fun _ => -32)).2.wire) ∧
    (run netHandler (sawaWriteData 1 0 64 fun _ => 7) (netOf fun _ => 32777)).1 = some 0 ∧
      ¬ Stored 0 64 (fun _ => 7)
        (run netHandler (sawaWriteData 1 0 64 fun _ => 7) (netOf fun _ => 32777)).2.wire := by
  refine ⟨⟨rfl, not_stored_of_ignored (by decide) (.short (by decide))⟩, ?_⟩
  rw [run_sawaWriteData_at_once 0 _ (by decide) (by decide) (by decide) 0]
  exact ⟨rfl, not_stored_of_ignored (by decide) (.refused (by decide))⟩

end SawaDriverWrites
