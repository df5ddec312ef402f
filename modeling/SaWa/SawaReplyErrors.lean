import SaWa.SawaDriverOrder

/-! Replies that reach the driver in pieces, cut, or not at all. `tcp_client_receive` returns what
the first result of `kernel_recvmsg` brings; `sawa_read_data` then only asks for more than one
byte, and `sawa_send_info` does not look at the result. -/
namespace SawaReplyErrors

open EffectProgram RangeStore LittleEndian SawaProtocol SawaDriver SawaDriverRun SawaDriverOrder

/-! ### Calls that come to an end -/

/-- The result number `k` ends the sending of `len` bytes, or the ones before it have taken
them. -/
def EndsAt (sends : ℕ → ℤ) (len k : ℕ) : Prop :=
  (¬ Retry (sends k) ∧ sends k ≤ 0) ∨ len ≤ taken k sends

/-- `tcp_client_send` does not try forever. -/
def SendEnds (sends : ℕ → ℤ) (len : ℕ) : Prop := ∃ k, EndsAt sends len k

theorem endsAt_succ (sends : ℕ → ℤ) (len k : ℕ) :
    EndsAt sends len (k + 1) ↔ EndsAt (fun i => sends (i + 1)) (len - (sends 0).toNat) k := by
  unfold EndsAt
  rw [taken, Nat.sub_le_iff_le_add']

section Send
variable {buf : List UInt8} {flags written left : ℕ} {s : Net}

theorem run_sendLoop_ends (hflags : flags &&& msgDontwait = 0) {k : ℕ}
    (hbuf : written + left = buf.length) (hleft : 0 < left) (h : EndsAt s.sends left k) :
    ∃ n len s', run netHandler (loop (sendRound buf flags) n (written, left)) s =
      (some len, s') := by
  induction k generalizing written left s with
  | zero =>
    have hzero : ¬ Retry (s.sends 0) ∧ s.sends 0 ≤ 0 := by
      refine h.resolve_right fun htaken => ?_
      rw [taken] at htaken
      omega
    obtain ⟨len, hrun⟩ := run_sendRound_last flags hbuf hzero.1 (by omega)
    exact ⟨1, len, _, run_loop_leave _ _ hrun⟩
  | succ k ih =>
    have hnext := (endsAt_succ _ _ _).mp h
    by_cases hmore : Retry (s.sends 0) ∨ 0 < s.sends 0 ∧ (s.sends 0).toNat < left
    · have hsent := sent_lt_left hleft hmore
      have hrest : written + (s.sends 0).toNat + (left - (s.sends 0).toNat) = buf.length := by omega
      obtain ⟨n, len, s', hloop⟩ := ih (s := s.afterSend (buf.drop written)) hrest (by omega) hnext
      exact ⟨n + 1, len, s',
        (run_loop_next _ _ (run_sendRound_next hflags hbuf hmore)).trans hloop⟩
    · obtain ⟨len, hrun⟩ := run_sendRound_last flags hbuf (fun hr => hmore (.inl hr)) (by omega)
      exact ⟨1, len, _, run_loop_leave _ _ hrun⟩

theorem sendEnds_of_run (hflags : flags &&& msgDontwait = 0) {n : ℕ} {len : ℤ} {s' : Net}
    (hbuf : written + left = buf.length)
    (h : run netHandler (loop (sendRound buf flags) n (written, left)) s = (some len, s')) :
    SendEnds s.sends left := by
  induction n generalizing written left s with
  | zero => simp [run_loop_zero] at h
  | succ n ih =>
    by_cases hmore : Retry (s.sends 0) ∨ 0 < s.sends 0 ∧ (s.sends 0).toNat < left
    · have hrest : written + (s.sends 0).toNat + (left - (s.sends 0).toNat) = buf.length := by
        have hsent := sent_le_left hmore
        omega
      rw [run_loop_next _ _ (run_sendRound_next hflags hbuf hmore)] at h
      obtain ⟨k, hk⟩ := ih hrest h
      exact ⟨k + 1, (endsAt_succ _ _ _).mpr hk⟩
    by_cases hpos : 0 < s.sends 0
    · refine ⟨1, Or.inr ?_⟩
      rw [taken, taken]
      omega
    · exact ⟨0, Or.inl ⟨fun hr => hmore (.inl hr), by omega⟩⟩

/-- A message can be sent to its end or its failure exactly when the results come to one. -/
theorem sendEnds_iff (s : Net) {message : List UInt8} (hne : 0 < message.length) :
    SendEnds s.sends message.length ↔
      ∃ n len s', run netHandler (tcpClientSend n message message.length msgWaitall) s =
        (some len, s') := by
  constructor
  · rintro ⟨k, hk⟩
    exact run_sendLoop_ends (by decide) (Nat.zero_add _) hne hk
  · rintro ⟨n, len, s', hrun⟩
    exact sendEnds_of_run (by decide) (Nat.zero_add _) hrun

end Send

/-- The result number `k` is the first one that `tcp_client_receive` returns. -/
def FirstResult (recvs : ℕ → Except ℕ ℕ) (k : ℕ) : Prop :=
  (∀ i < k, Waits (recvs i)) ∧ ¬ Waits (recvs k)

theorem run_receiveLoop_ends (flags maxSize : ℕ) {k : ℕ} {s : Net} (h : FirstResult s.recvs k) :
    ∃ s', run netHandler (tcpClientReceive (k + 1) flags maxSize) s =
      (some ((s.recvs k).map fun j => s.reply.take (min j maxSize)), s') := by
  unfold tcpClientReceive
  induction k generalizing s with
  | zero => exact ⟨_, run_loop_leave _ _ (run_receiveRound_last h.2)⟩
  | succ k ih =>
    obtain ⟨hround, hreply⟩ := run_receiveRound_waits (h.1 0 (Nat.succ_pos k))
    have hnext : FirstResult (s.afterRecv maxSize).recvs k :=
      ⟨fun i hi => h.1 (i + 1) (by omega), h.2⟩
    obtain ⟨s', hloop⟩ := ih hnext
    rw [hreply] at hloop
    exact ⟨s', (run_loop_next _ _ hround).trans hloop⟩

/-! ### A message and the first piece of its reply -/

/-- What the result number `k` brings when `size` bytes are asked for. -/
def piece (net : Net) (size k : ℕ) : Received :=
  (net.recvs k).map fun j => net.reply.take (min j size)

section Exchange
variable {message : List UInt8} {flags size : ℕ} {net : Net}

theorem run_exchange {rounds : ℕ} {len : ℤ} {r : Received} {t t' : Net} (hc : Connects net)
    (hne : 0 < message.length)
    (hsend : run netHandler (tcpClientSend rounds message message.length msgWaitall) net =
      (some len, t))
    (hrecv : run netHandler (tcpClientReceive rounds flags size) t = (some r, t')) :
    SendEnds net.sends message.length ∧ ∃ k, FirstResult net.recvs k ∧ r = piece net size k := by
  obtain ⟨sends, sent, -, -, rfl⟩ := (sent_tcpClientSend hc hne hsend).sent
  obtain ⟨k, hwaits, hlast, hr⟩ := run_receiveLoop hrecv
  exact ⟨(sendEnds_iff net hne).mpr ⟨rounds, len, _, hsend⟩, k, ⟨hwaits, hlast⟩, hr⟩

theorem run_exchange_ends (flags size : ℕ) {k : ℕ} (hc : Connects net) (hne : 0 < message.length)
    (hs : SendEnds net.sends message.length) (hk : FirstResult net.recvs k) :
    ∃ rounds len t t',
      run netHandler (tcpClientSend rounds message message.length msgWaitall) net =
          (some len, t) ∧
        run netHandler (tcpClientReceive rounds flags size) t = (some (piece net size k), t') := by
  obtain ⟨n, len, t, hsend⟩ := (sendEnds_iff net hne).mp hs
  obtain ⟨sends, sent, -, -, rfl⟩ := (sent_tcpClientSend hc hne hsend).sent
  obtain ⟨t', hrecv⟩ := run_receiveLoop_ends flags size
    (s := { net with sends := sends, wire := net.wire ++ message.take sent }) hk
  exact ⟨max n (k + 1), len, _, t', run_loop_mono _ _ (Nat.le_max_left n (k + 1)) hsend,
    run_loop_mono _ _ (Nat.le_max_right n (k + 1)) hrecv⟩

end Exchange

/-! ### `sawa_read_data` -/

section Read
variable {sector nbSectors : UInt64} {net : Net}

theorem run_sawaReadData_returned {rounds : ℕ} {bufferIn buffer : Mem} {ret : ℤ} {net' : Net}
    (h : run netHandler (sawaReadData rounds sector nbSectors bufferIn) net =
      (some (ret, buffer), net')) :
    ret = -1 ∨ Connects net ∧ SendEnds net.sends 13 ∧ ∃ k, FirstResult net.recvs k ∧
      ret = (if 1 < (piece net (sectorBytes nbSectors).toNat k).len then 0 else -1) ∧
      buffer = store bufferIn 0 (piece net (sectorBytes nbSectors).toNat k).bytes := by
  have hlen := length_readMessage sector nbSectors
  rw [sawaReadData, run_bind, sawaReadAsk, run_afterConnect] at h
  by_cases hc : Connects net
  · rw [if_pos hc, if_neg (by decide), run_bind, ← hlen] at h
    rcases hsend : run netHandler (tcpClientSend rounds (readMessage sector nbSectors)
      (readMessage sector nbSectors).length msgWaitall) net with ⟨_ | len, t⟩
    · rw [hsend] at h
      exact absurd (congrArg Prod.fst h) (by simp)
    · rw [hsend] at h
      replace h : run netHandler (sawaReadAnswer rounds nbSectors bufferIn) t =
        (some (ret, buffer), net') := h
      rw [sawaReadAnswer, run_bind] at h
      rcases hrecv : run netHandler (tcpClientReceive rounds msgDontwait
        (sectorBytes nbSectors).toNat) t with ⟨_ | r, t'⟩
      · rw [hrecv] at h
        exact absurd (congrArg Prod.fst h) (by simp)
      · obtain ⟨hs, k, hk, hr⟩ := run_exchange hc (by rw [hlen]; decide) hsend hrecv
        rw [hrecv, run_sockRelease] at h
        obtain ⟨hret, hbuffer⟩ := Prod.mk.inj (Option.some.inj (congrArg Prod.fst h))
        rw [hr] at hret hbuffer
        exact Or.inr ⟨hc, hlen ▸ hs, k, hk, hret.symm, hbuffer.symm⟩
  · rw [if_neg hc, if_pos (by decide)] at h
    have hret := Option.some.inj (congrArg Prod.fst h)
    exact Or.inl (congrArg Prod.fst hret).symm

theorem run_sawaReadData_ends (sector nbSectors : UInt64) {k : ℕ} (hc : Connects net)
    (hs : SendEnds net.sends 13) (hk : FirstResult net.recvs k) :
    ∃ rounds, ∀ bufferIn, ∃ net',
      run netHandler (sawaReadData rounds sector nbSectors bufferIn) net =
        (some (if 1 < (piece net (sectorBytes nbSectors).toNat k).len then 0 else -1,
          store bufferIn 0 (piece net (sectorBytes nbSectors).toNat k).bytes), net') := by
  have hlen := length_readMessage sector nbSectors
  rw [← hlen] at hs
  obtain ⟨rounds, len, t, t', hsend, hrecv⟩ := run_exchange_ends msgDontwait
    (sectorBytes nbSectors).toNat hc (by rw [hlen]; decide) hs hk
  refine ⟨rounds, fun bufferIn => ⟨t', ?_⟩⟩
  rw [hlen] at hsend
  rw [sawaReadData, run_bind, sawaReadAsk, run_afterConnect, if_pos hc, if_neg (by decide),
    run_bind, hsend]
  show run netHandler (sawaReadAnswer rounds nbSectors bufferIn) t = _
  rw [sawaReadAnswer, run_bind, hrecv]
  rfl

end Read

/-! ### `sawa_send_info` -/

section Info
variable {net : Net}

/-- The local `buffer_in` of `sawa_send_info` before it receives. -/
def infoBuffer (net : Net) : Mem := store net.old 0 [0x42]

theorem run_buffer {α : Type} (s : Net) (k : Mem → DriverM α) :
    run netHandler (kernel .buffer >>= k) s = run netHandler (k s.old) s := rfl

theorem run_setNbSectors {α : Type} (n : UInt32) (s : Net) (k : Unit → DriverM α) :
    run netHandler (kernel (.setNbSectors n) >>= k) s =
      run netHandler (k ()) { s with nbSectors := n } := rfl

theorem run_sawaSendInfo_returned {rounds : ℕ} {ret : ℤ} {net' : Net}
    (h : run netHandler (sawaSendInfo rounds) net = (some ret, net')) :
    ret = -1 ∨ Connects net ∧ SendEnds net.sends 5 ∧ ∃ k, FirstResult net.recvs k ∧ ret = 0 ∧
      net'.nbSectors = wordAt (store (infoBuffer net) 0 (piece net 4 k).bytes) 0 := by
  have hne : 0 < infoMessage.length := by decide
  rw [sawaSendInfo, run_buffer, run_afterConnect] at h
  by_cases hc : Connects net
  · rw [if_pos hc, if_neg (by decide), run_bind] at h
    rcases hsend : run netHandler (tcpClientSend rounds infoMessage 5 msgWaitall) net
      with ⟨_ | len, t⟩
    · rw [hsend] at h
      exact absurd (congrArg Prod.fst h) (by simp)
    · rw [hsend, run_bind] at h
      rcases hrecv : run netHandler (tcpClientReceive rounds msgDontwait 4) t with ⟨_ | r, t'⟩
      · rw [hrecv] at h
        exact absurd (congrArg Prod.fst h) (by simp)
      · obtain ⟨hs, k, hk, hr⟩ := run_exchange hc hne hsend hrecv
        rw [hrecv, run_setNbSectors, run_sockRelease, hr] at h
        obtain ⟨hret, hnet⟩ := Prod.mk.inj h
        exact Or.inr ⟨hc, hs, k, hk, (Option.some.inj hret).symm, hnet ▸ rfl⟩
  · rw [if_neg hc, if_pos (by decide)] at h
    exact Or.inl (Option.some.inj (congrArg Prod.fst h)).symm

theorem run_sawaSendInfo_ends (net : Net) {k : ℕ} (hc : Connects net) (hs : SendEnds net.sends 5)
    (hk : FirstResult net.recvs k) :
    ∃ rounds net', run netHandler (sawaSendInfo rounds) net = (some 0, net') ∧
      net'.nbSectors = wordAt (store (infoBuffer net) 0 (piece net 4 k).bytes) 0 := by
  have hne : 0 < infoMessage.length := by decide
  obtain ⟨rounds, len, t, t', hsend, hrecv⟩ := run_exchange_ends msgDontwait 4 hc hne hs hk
  refine ⟨rounds, { t' with
    nbSectors := wordAt (store (infoBuffer net) 0 (piece net 4 k).bytes) 0 }, ?_, rfl⟩
  replace hsend : run netHandler (tcpClientSend rounds infoMessage 5 msgWaitall) net =
    (some len, t) := hsend
  rw [sawaSendInfo, run_buffer, run_afterConnect, if_pos hc, if_neg (by decide), run_bind, hsend,
    run_bind, hrecv]
  rfl

end Info

/-! ### When the results are right -/

/-- A read that comes to an end has filled the buffer with the reply and returns 0, or it returns
a negative value, whatever the buffer held before. -/
def ReadHonest (sector nbSectors : UInt64) (net : Net) : Prop :=
  ∀ rounds bufferIn ret buffer net',
    run netHandler (sawaReadData rounds sector nbSectors bufferIn) net =
        (some (ret, buffer), net') →
      ret < 0 ∨ ret = 0 ∧
        load buffer 0 (512 * nbSectors.toNat) = net.reply.take (512 * nbSectors.toNat)

/-- An INFO that comes to an end has set `nb_sectors` from four bytes of the reply and returns 0,
or it returns a negative value, whatever its buffer held before. -/
def InfoHonest (net : Net) : Prop :=
  ∀ rounds old ret net', run netHandler (sawaSendInfo rounds) { net with old := old } =
      (some ret, net') →
    ret < 0 ∨ ret = 0 ∧ wordBytes net'.nbSectors = net.reply.take 4

/-- The first result, if it brings bytes, brings at most one of them or all that the buffer has
room for. -/
def ReadWhole (nbSectors : UInt64) (net : Net) : Prop :=
  Connects net → SendEnds net.sends 13 → ∀ k j, FirstResult net.recvs k → net.recvs k = .ok j →
    min (min j (sectorBytes nbSectors).toNat) net.reply.length ≤ 1 ∨
      min (min j (sectorBytes nbSectors).toNat) net.reply.length = 512 * nbSectors.toNat

/-- The first result brings four bytes. -/
def InfoWhole (net : Net) : Prop :=
  Connects net → SendEnds net.sends 5 → ∀ k, FirstResult net.recvs k →
    ∃ j, net.recvs k = .ok j ∧ 4 ≤ j ∧ 4 ≤ net.reply.length

/-- Bytes that fill a buffer whatever its last cell held before are as many as the buffer has. -/
theorem length_of_filled {got : List UInt8} {n : ℕ} (target : List UInt8) (hle : got.length ≤ n)
    (h : ∀ b : UInt8, ∃ m : Mem, m (n - 1) = b ∧ load (store m 0 got) 0 n = target) :
    got.length = n := by
  by_contra hne
  obtain ⟨m, hm, hfill⟩ := h 0
  obtain ⟨m', hm', hfill'⟩ := h 1
  have hlast := load_inj (hfill.trans hfill'.symm) (Nat.zero_le (n - 1)) (by omega)
  rw [store_outside m 0 got (by omega), store_outside m' 0 got (by omega), hm, hm'] at hlast
  exact absurd hlast (by decide)

theorem filled_of_length {reply : List UInt8} {m n : ℕ} (old : Mem)
    (h : (reply.take m).length = n) : load (store old 0 (reply.take m)) 0 n = reply.take n := by
  have hself := load_store_self old 0 (reply.take m)
  rw [h] at hself
  rw [hself, ← List.take_of_length_le h.le, List.take_take]
  congr 1
  rw [List.length_take] at h
  omega

theorem toNat_sectorBytes_le (n : UInt64) : (sectorBytes n).toNat ≤ 512 * n.toNat := by
  rw [sectorBytes, UInt64.toNat_toUInt32, UInt64.toNat_mul]
  show n.toNat * 512 % 2 ^ 64 % 2 ^ 32 ≤ _
  omega

theorem piece_ok {net : Net} {k j : ℕ} (size : ℕ) (h : net.recvs k = .ok j) :
    piece net size k = .ok (net.reply.take (min j size)) := by
  rw [piece, h]
  rfl

theorem length_piece_le (net : Net) (size k : ℕ) : (piece net size k).bytes.length ≤ size := by
  cases hj : net.recvs k with
  | error code =>
    rw [piece, hj]
    exact Nat.zero_le size
  | ok j =>
    rw [piece_ok _ hj, Received.bytes, List.length_take]
    omega

theorem read_honest_iff (sector nbSectors : UInt64) (net : Net) :
    ReadHonest sector nbSectors net ↔ ReadWhole nbSectors net := by
  have hsize := toNat_sectorBytes_le nbSectors
  constructor
  · intro h hc hs k j hk hj
    obtain ⟨rounds, hruns⟩ := run_sawaReadData_ends sector nbSectors hc hs hk
    rw [piece_ok _ hj] at hruns
    rw [← List.length_take, or_iff_not_imp_left]
    intro hlong
    refine length_of_filled (net.reply.take (512 * nbSectors.toNat)) ?_
      fun b => ⟨fun _ => b, rfl, ?_⟩
    · rw [List.length_take]
      omega
    · obtain ⟨net', hrun⟩ := hruns fun _ => b
      have hpos : (1 : ℤ) < Received.len
          (.ok (net.reply.take (min j (sectorBytes nbSectors).toNat))) := by
        exact Int.ofNat_lt.mpr (not_le.mp hlong)
      rw [if_pos hpos] at hrun
      exact ((h _ _ _ _ _ hrun).resolve_left (lt_irrefl 0)).2
  · intro h rounds bufferIn ret buffer net' hrun
    rcases run_sawaReadData_returned hrun with rfl | ⟨hc, hs, k, hk, rfl, rfl⟩
    · exact Or.inl (by decide)
    by_cases hpos : 1 < (piece net (sectorBytes nbSectors).toNat k).len
    · rw [if_pos hpos]
      cases hj : net.recvs k with
      | error code =>
        rw [piece, hj] at hpos
        simp only [Except.map, Received.len] at hpos
        omega
      | ok j =>
        rw [piece_ok _ hj] at hpos ⊢
        have hlong := not_le.mpr (Int.ofNat_lt.mp hpos)
        rw [List.length_take] at hlong
        have hall := (h hc hs k j hk hj).resolve_left hlong
        rw [← List.length_take] at hall
        exact Or.inr ⟨rfl, filled_of_length bufferIn hall⟩
    · rw [if_neg hpos]
      exact Or.inl (by decide)

theorem info_honest_iff (net : Net) : InfoHonest net ↔ InfoWhole net := by
  constructor
  · intro h hc hs k hk
    have hfill : (piece net 4 k).bytes.length = 4 := by
      refine length_of_filled (net.reply.take 4) (length_piece_le net 4 k)
        fun b => ⟨infoBuffer { net with old := fun _ => b }, rfl, ?_⟩
      obtain ⟨rounds, net', hrun, hset⟩ :=
        run_sawaSendInfo_ends { net with old := fun _ => b } hc hs hk
      have hreply := ((h _ _ _ _ hrun).resolve_left (lt_irrefl 0)).2
      rw [hset, wordAt, wordBytes_wordOf (length_load _ _ _)] at hreply
      exact hreply
    cases hj : net.recvs k with
    | error code =>
      rw [piece, hj] at hfill
      exact absurd hfill.symm (Nat.succ_ne_zero 3)
    | ok j =>
      rw [piece_ok _ hj] at hfill
      replace hfill : (net.reply.take (min j 4)).length = 4 := hfill
      rw [List.length_take] at hfill
      exact ⟨j, rfl, by omega, by omega⟩
  · intro h rounds old ret net' hrun
    rcases run_sawaSendInfo_returned hrun with rfl | ⟨hc, hs, k, hk, rfl, hset⟩
    · exact Or.inl (by decide)
    · obtain ⟨j, hj, hj4, hlen⟩ := h hc hs k hk
      have hbytes : (piece { net with old := old } 4 k).bytes = net.reply.take (min j 4) :=
        congrArg Received.bytes (piece_ok 4 hj)
      have hlong : (net.reply.take (min j 4)).length = 4 := by
        rw [List.length_take]
        omega
      rw [hset, wordAt, wordBytes_wordOf (length_load _ _ _), hbytes]
      exact Or.inr ⟨rfl, filled_of_length _ hlong⟩

/-- What the driver's two requests for data return is right exactly when the first piece of the
reply is all of it, or one byte for a read. -/
theorem driver_results_right_iff (sector nbSectors : UInt64) (net : Net) :
    (ReadHonest sector nbSectors net ↔ ReadWhole nbSectors net) ∧
      (InfoHonest net ↔ InfoWhole net) :=
  ⟨read_honest_iff sector nbSectors net, info_honest_iff net⟩

/-- A connection whose request is taken at once and whose reply of one sector comes in a first
piece of two bytes. -/
def splitReply : Net where
  created := 0
  connected := 0
  sends := fun _ => 13
  recvs := fun _ => .ok 2
  wire := []
  reply := List.replicate 512 0xAB
  old := fun _ => 0
  nbSectors := 0

theorem splitReply_first : FirstResult splitReply.recvs 0 := by
  refine ⟨fun i hi => absurd hi (Nat.not_lt_zero i), ?_⟩
  rintro (h | h) <;> cases h

/-- Both requests take the two bytes for the whole reply. -/
theorem split_reply_taken_for_whole :
    ¬ ReadHonest 0 1 splitReply ∧ ¬ InfoHonest splitReply := by
  have hsent : ∀ len, len ≤ 13 → SendEnds splitReply.sends len := by
    intro len hlen
    exact ⟨1, Or.inr hlen⟩
  constructor
  · intro h
    have hpiece := (read_honest_iff 0 1 splitReply).mp h (by decide) (hsent 13 le_rfl) 0 2
      splitReply_first rfl
    rw [show splitReply.reply.length = 512 from List.length_replicate] at hpiece
    exact absurd hpiece (by decide)
  · intro h
    obtain ⟨j, hj, hlong, -⟩ := (info_honest_iff splitReply).mp h (by decide)
      (hsent 5 (by decide)) 0 splitReply_first
    cases hj
    exact absurd hlong (by decide)

end SawaReplyErrors
