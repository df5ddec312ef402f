import SaWa.SawaDriver

/-! Runs of the driver's calls. Each call opens a connection of its own; the results of the
kernel calls are given in advance, and only their sizes are up to the network: what arrives is
what was sent. -/
namespace SawaDriverRun

open EffectProgram RangeStore LittleEndian SawaProtocol SawaDriver

/-- One connection as the driver sees it. `wire` holds the bytes the kernel took for sending and
`reply` those of the server still to be received. -/
structure Net where
  created : ℤ
  connected : ℤ
  sends : ℕ → ℤ
  recvs : ℕ → Except ℕ ℕ
  wire : List UInt8
  reply : List UInt8
  old : Mem
  nbSectors : UInt32

/-- `kernel_sendmsg` never takes more bytes than it is offered. -/
def Net.afterSend (s : Net) (bytes : List UInt8) : Net :=
  { s with
    sends := fun k => s.sends (k + 1)
    wire := s.wire ++ bytes.take (s.sends 0).toNat }

def Net.received (s : Net) (maxSize : ℕ) : Received :=
  (s.recvs 0).map fun k => s.reply.take (min k maxSize)

def Net.afterRecv (s : Net) (maxSize : ℕ) : Net :=
  { s with
    recvs := fun k => s.recvs (k + 1)
    reply := s.reply.drop (s.received maxSize).bytes.length }

def netHandler : Handler KernelCall KernelAnswer Net
  | .buffer, s => (s.old, s)
  | .sockCreate, s => (s.created, s)
  | .connect, s => (s.connected, s)
  | .sendmsg bytes _, s => (min (s.sends 0) bytes.length, s.afterSend bytes)
  | .recvmsg maxSize _, s => (s.received maxSize, s.afterRecv maxSize)
  | .sockRelease, s => ((), s)
  | .setNbSectors n, s => ((), { s with nbSectors := n })

section Calls
variable {α : Type} (s : Net)

theorem run_sockCreate (k : ℤ → DriverM α) :
    run netHandler (kernel .sockCreate >>= k) s = run netHandler (k s.created) s := rfl

theorem run_connect (k : ℤ → DriverM α) :
    run netHandler (kernel .connect >>= k) s = run netHandler (k s.connected) s := rfl

theorem run_recvmsg (maxSize flags : ℕ) (k : Received → DriverM α) :
    run netHandler (kernel (.recvmsg maxSize flags) >>= k) s =
      run netHandler (k (s.received maxSize)) (s.afterRecv maxSize) := rfl

theorem run_sockRelease (k : Unit → DriverM α) :
    run netHandler (kernel .sockRelease >>= k) s = run netHandler (k ()) s := rfl

end Calls

/-! ### Connecting -/

def Connects (s : Net) : Prop := 0 ≤ s.created ∧ (s.connected = 0 ∨ s.connected = -einprogress)

instance (s : Net) : Decidable (Connects s) := inferInstanceAs (Decidable (_ ∧ (_ ∨ _)))

theorem run_tcpClientConnect (s : Net) :
    run netHandler tcpClientConnect s = (if Connects s then 0 else -1, s) := by
  rw [tcpClientConnect, run_sockCreate]
  by_cases hc : s.created < 0
  · rw [if_pos hc, if_neg fun h : Connects s => absurd h.1 (by omega)]
    rfl
  · rw [if_neg hc, run_connect]
    by_cases hr : s.connected ≠ 0 ∧ s.connected ≠ -einprogress
    · rw [if_pos hr, if_neg fun h : Connects s => h.2.elim hr.1 hr.2]
      rfl
    · rw [if_neg hr, if_pos (show Connects s from ⟨by omega, by omega⟩)]
      rfl

theorem run_afterConnect {α : Type} (f : ℤ → DriverM α) (s : Net) :
    run netHandler (tcpClientConnect >>= f) s =
      if Connects s then run netHandler (f 0) s else run netHandler (f (-1)) s := by
  rw [run_bind, run_tcpClientConnect]
  split_ifs <;> rfl

/-! ### Sending -/

/-- A result after which `tcp_client_send` tries again with the same bytes. -/
def Retry (r : ℤ) : Prop := r = -erestartsys ∨ r = -eagain

instance (r : ℤ) : Decidable (Retry r) := inferInstanceAs (Decidable (_ ∨ _))

/-- The bytes that the first `k` results take, when no limit is set to them. -/
def taken : ℕ → (ℕ → ℤ) → ℕ
  | 0, _ => 0
  | k + 1, sends => (sends 0).toNat + taken k fun i => sends (i + 1)

/-- The results are retries or positive up to where they have taken `len` bytes. -/
def Carries (sends : ℕ → ℤ) (len : ℕ) : Prop :=
  ∃ k, (∀ i < k, Retry (sends i) ∨ 0 < sends i) ∧ len ≤ taken k sends

/-- One result more in front. -/
theorem carries_cons (sends : ℕ → ℤ) {len : ℕ} (hlen : 0 < len) :
    Carries sends len ↔ (Retry (sends 0) ∨ 0 < sends 0) ∧
      Carries (fun i => sends (i + 1)) (len - (sends 0).toNat) := by
  constructor
  · rintro ⟨k, hk, hsum⟩
    cases k with
    | zero => exact absurd hsum (by rw [taken]; omega)
    | succ k =>
      rw [taken] at hsum
      exact ⟨hk 0 (Nat.succ_pos k), k, fun i hi => hk (i + 1) (by omega), by omega⟩
  · rintro ⟨h0, k, hk, hsum⟩
    refine ⟨k + 1, fun i hi => ?_, by rw [taken]; omega⟩
    cases i with
    | zero => exact h0
    | succ i => exact hk i (by omega)

theorem carries_zero (sends : ℕ → ℤ) : Carries sends 0 :=
  ⟨0, fun _ h => absurd h (Nat.not_lt_zero _), Nat.zero_le _⟩

section Send
variable {buf : List UInt8} {flags written left : ℕ} {s : Net}

theorem Retry.neg {r : ℤ} (h : Retry r) : r < 0 := by
  unfold Retry erestartsys eagain at h
  omega

/-- The test of the source, which also looks at the flags. -/
def Again (flags : ℕ) (len : ℤ) : Prop :=
  len = -erestartsys ∨ (flags &&& msgDontwait = 0 ∧ len = -eagain)

instance (len : ℤ) : Decidable (Again flags len) := inferInstanceAs (Decidable (_ ∨ (_ ∧ _)))

theorem Again.retry {len : ℤ} (h : Again flags len) : Retry len := h.imp_right And.right

/-- How a round goes on after the result `len`. -/
def outcome (flags written left : ℕ) (len : ℤ) : (ℕ × ℕ) ⊕ ℤ :=
  if Again flags len ∨ 0 < len ∧ left - len.toNat ≠ 0 then
    .inl (written + len.toNat, left - len.toNat)
  else .inr (if written + len.toNat ≠ 0 then (written + len.toNat : ℕ) else len)

/-- The result of the next call of `kernel_sendmsg`. -/
def result (s : Net) (bytes : List UInt8) : ℤ := min (s.sends 0) bytes.length

/-- What is offered is all that is left of the buffer. -/
theorem offered_all (hbuf : written + left = buf.length) :
    (buf.drop written).take left = buf.drop written ∧ (buf.drop written).length = left := by
  have hlen : (buf.drop written).length = left := by
    rw [List.length_drop]
    omega
  exact ⟨List.take_of_length_le hlen.le, hlen⟩

theorem sendRound_eq (hbuf : written + left = buf.length) :
    sendRound buf flags (written, left) =
      kernel (.sendmsg (buf.drop written) flags) >>= fun len =>
        .ret (outcome flags written left len) := by
  rw [sendRound, (offered_all hbuf).1]
  congr 1
  funext (len : ℤ)
  show (if Again flags len then _ else _) = Prog.ret (outcome flags written left len)
  unfold outcome
  by_cases hagain : Again flags len
  · have hzero : len.toNat = 0 := Int.toNat_of_nonpos hagain.retry.neg.le
    rw [if_pos hagain, if_pos (.inl hagain), hzero]
    rfl
  · rw [if_neg hagain]
    by_cases hpos : 0 < len
    · by_cases hleft : left - len.toNat = 0 <;> simp [hagain, hpos, hleft]
    · have hzero : len.toNat = 0 := Int.toNat_of_nonpos (not_lt.1 hpos)
      simp [hagain, hpos, hzero]

theorem run_sendRound (hbuf : written + left = buf.length) :
    run netHandler (sendRound buf flags (written, left)) s =
      (outcome flags written left (result s (buf.drop written)),
        s.afterSend (buf.drop written)) := by
  rw [sendRound_eq hbuf]
  rfl

theorem sent_le_left {r : ℤ} (h : Retry r ∨ 0 < r ∧ r.toNat < left) : r ≤ left := by
  rcases h with hr | hmore
  · have hneg := hr.neg
    omega
  · omega

theorem sent_lt_left {r : ℤ} (hleft : 0 < left) (h : Retry r ∨ 0 < r ∧ r.toNat < left) :
    r.toNat < left := by
  rcases h with hr | hmore
  · have hneg := hr.neg
    omega
  · exact hmore.2

/-- A result that is tried again, or a positive one that leaves bytes to send. -/
theorem run_sendRound_next (hflags : flags &&& msgDontwait = 0)
    (hbuf : written + left = buf.length)
    (h : Retry (s.sends 0) ∨ 0 < s.sends 0 ∧ (s.sends 0).toNat < left) :
    run netHandler (sendRound buf flags (written, left)) s =
      (.inl (written + (s.sends 0).toNat, left - (s.sends 0).toNat),
        s.afterSend (buf.drop written)) := by
  have hresult : result s (buf.drop written) = s.sends 0 := by
    rw [result, (offered_all hbuf).2, min_eq_left (sent_le_left h)]
  have hnext : Again flags (s.sends 0) ∨ 0 < s.sends 0 ∧ left - (s.sends 0).toNat ≠ 0 :=
    h.imp (fun hr => hr.imp_right fun he => ⟨hflags, he⟩) fun hm => ⟨hm.1, by omega⟩
  rw [run_sendRound hbuf, hresult, outcome, if_pos hnext]

/-- A result that takes all that is left, or that ends the sending. -/
theorem run_sendRound_last (flags : ℕ) (hbuf : written + left = buf.length)
    (hr : ¬ Retry (s.sends 0)) (h : 0 < s.sends 0 → left ≤ (s.sends 0).toNat) :
    ∃ len, run netHandler (sendRound buf flags (written, left)) s =
      (.inr len, s.afterSend (buf.drop written)) := by
  have hresult : result s (buf.drop written) = min (s.sends 0) left := by
    rw [result, (offered_all hbuf).2]
  have hagain : ¬Again flags (min (s.sends 0) left) := by
    intro hagain
    have hneg := hagain.retry.neg
    rw [min_eq_left (by omega)] at hagain
    exact hr hagain.retry
  have hlast : ¬(Again flags (min (s.sends 0) left) ∨
      0 < min (s.sends 0) (left : ℤ) ∧ left - (min (s.sends 0) (left : ℤ)).toNat ≠ 0) := by
    rintro (ha | ⟨hpos, hmore⟩)
    · exact hagain ha
    · omega
  rw [run_sendRound hbuf, hresult, outcome, if_neg hlast]
  exact ⟨_, rfl⟩

/-- A send that comes to an end has sent a beginning of what was left, as much of it as the results
carry. -/
theorem run_sendLoop (hflags : flags &&& msgDontwait = 0) {n : ℕ} {s' : Net} {len : ℤ}
    (hbuf : written + left = buf.length) (hleft : 0 < left)
    (h : run netHandler (loop (sendRound buf flags) n (written, left)) s = (some len, s')) :
    ∃ sends k, k ≤ left ∧ (∀ m ≤ left, m ≤ k ↔ Carries s.sends m) ∧
      s' = { s with sends := sends, wire := s.wire ++ (buf.drop written).take k } := by
  induction n generalizing written left s with
  | zero => simp [run_loop_zero] at h
  | succ n ih =>
    by_cases hnext : Retry (s.sends 0) ∨ 0 < s.sends 0 ∧ (s.sends 0).toNat < left
    · have hsent := sent_lt_left hleft hnext
      rw [run_loop_next _ _ (run_sendRound_next hflags hbuf hnext)] at h
      obtain ⟨sends, k, hk, hiff, hs⟩ := ih (by omega) (by omega) h
      refine ⟨sends, (s.sends 0).toNat + k, by omega, ?_, ?_⟩
      · intro m hm
        rcases Nat.eq_zero_or_pos m with rfl | hpos
        · exact iff_of_true (Nat.zero_le _) (carries_zero _)
        rw [carries_cons s.sends hpos, and_iff_right (hnext.imp_right And.left)]
        show _ ↔ Carries (s.afterSend (buf.drop written)).sends _
        rw [← hiff _ (Nat.sub_le_sub_right hm _)]
        omega
      · rw [hs, List.take_add, List.drop_drop, ← List.append_assoc]
        rfl
    · have hretry : ¬ Retry (s.sends 0) := fun hr => hnext (.inl hr)
      have hlast : 0 < s.sends 0 → left ≤ (s.sends 0).toNat := fun hp => by
        by_contra hlt
        exact hnext (.inr ⟨hp, by omega⟩)
      obtain ⟨_, hrun⟩ := run_sendRound_last flags hbuf hretry hlast
      rw [run_loop_leave _ _ hrun] at h
      have hs : s.afterSend (buf.drop written) = s' := congrArg Prod.snd h
      have hdrop := (offered_all hbuf).2
      by_cases hpos : 0 < s.sends 0
      · have hall := hlast hpos
        refine ⟨fun i => s.sends (i + 1), left, le_rfl, ?_, ?_⟩
        · intro m hm
          exact iff_of_true hm ⟨1, fun i hi => Nat.lt_one_iff.mp hi ▸ .inr hpos, hm.trans hall⟩
        · rw [← hs, Net.afterSend, List.take_of_length_le (by omega),
            List.take_of_length_le (by omega)]
      · refine ⟨fun i => s.sends (i + 1), 0, Nat.zero_le _, ?_, ?_⟩
        · intro m _
          rcases Nat.eq_zero_or_pos m with rfl | hm
          · exact iff_of_true le_rfl (carries_zero _)
          rw [carries_cons s.sends hm]
          exact iff_of_false (Nat.not_le.mpr hm) fun hc => hc.1.elim hretry hpos
        · rw [← hs, Net.afterSend, Int.toNat_of_nonpos (by omega)]

end Send

/-- What a command has sent of its message when it goes on after `tcp_client_send`. -/
structure Sent (message : List UInt8) (s s' : Net) : Prop where
  connects : Connects s
  sent : ∃ sends k, k ≤ message.length ∧ (∀ m ≤ message.length, m ≤ k ↔ Carries s.sends m) ∧
    s' = { s with sends := sends, wire := s.wire ++ message.take k }

theorem sent_tcpClientSend {rounds : ℕ} {message : List UInt8} {s s' : Net} {len : ℤ}
    (hc : Connects s) (hne : 0 < message.length)
    (h : run netHandler (tcpClientSend rounds message message.length msgWaitall) s =
      (some len, s')) : Sent message s s' :=
  ⟨hc, run_sendLoop (by decide) (Nat.zero_add _) hne h⟩

/-! ### The commands -/

theorem length_writeMessage (sector nbSectors : UInt64) (buffer : Mem) :
    (writeMessage sector nbSectors buffer).length = 9 + (sectorBytes nbSectors).toNat := by
  simp only [writeMessage, List.length_append, List.length_cons, length_wordBytes, length_load]
  omega

theorem length_readMessage (sector nbSectors : UInt64) :
    (readMessage sector nbSectors).length = 13 := by
  simp [readMessage]

/-- The length passed to `tcp_client_send` is that of the message, unless it wraps. -/
theorem sent_length {nbSectors : UInt64} (h : 9 + (sectorBytes nbSectors).toNat < 2 ^ 32) :
    (9 + sectorBytes nbSectors).toNat = 9 + (sectorBytes nbSectors).toNat := by
  rw [UInt32.toNat_add]
  exact Nat.mod_eq_of_lt h

theorem sent_sawaWriteData {rounds : ℕ} {sector nbSectors : UInt64} {buffer : Mem} {s s' : Net}
    (hn : 9 + (sectorBytes nbSectors).toNat < 2 ^ 32)
    (h : run netHandler (sawaWriteData rounds sector nbSectors buffer) s = (some 0, s')) :
    Sent (writeMessage sector nbSectors buffer) s s' := by
  rw [sawaWriteData, run_afterConnect] at h
  by_cases hc : Connects s
  · rw [if_pos hc, if_neg (by decide), run_bind, sent_length hn,
      ← length_writeMessage sector nbSectors buffer] at h
    rcases hs : run netHandler (tcpClientSend rounds (writeMessage sector nbSectors buffer)
      (writeMessage sector nbSectors buffer).length msgWaitall) s with ⟨_ | len, t⟩
    · rw [hs] at h
      exact absurd (congrArg Prod.fst h) (by simp)
    · rw [hs, run_sockRelease] at h
      have ht : t = s' := congrArg Prod.snd h
      have hpos : 0 < (writeMessage sector nbSectors buffer).length := by
        rw [length_writeMessage]
        omega
      exact ht ▸ sent_tcpClientSend hc hpos hs
  · rw [if_neg hc, if_pos (by decide)] at h
    exact absurd (congrArg Prod.fst h) (by simp)

theorem sent_sawaReadAsk {rounds : ℕ} {sector nbSectors : UInt64} {s s' : Net}
    (h : run netHandler (sawaReadAsk rounds sector nbSectors) s = (some true, s')) :
    Sent (readMessage sector nbSectors) s s' := by
  rw [sawaReadAsk, run_afterConnect] at h
  by_cases hc : Connects s
  · rw [if_pos hc, if_neg (by decide), run_bind] at h
    rcases hs : run netHandler (tcpClientSend rounds (readMessage sector nbSectors) 13
      msgWaitall) s with ⟨_ | len, t⟩
    · rw [hs] at h
      exact absurd (congrArg Prod.fst h) (by simp)
    · rw [hs] at h
      have ht : t = s' := congrArg Prod.snd h
      rw [← length_readMessage sector nbSectors] at hs
      exact ht ▸ sent_tcpClientSend hc (by rw [length_readMessage]; decide) hs
  · rw [if_neg hc, if_pos (by decide)] at h
    exact absurd (congrArg Prod.fst h) (by simp)

/-- A write whose message the kernel takes at once. -/
theorem run_sawaWriteData_at_once (sector : UInt64) {nbSectors : UInt64} (buffer : Mem) {s : Net}
    (hc : Connects s) (hn : 9 + (sectorBytes nbSectors).toNat < 2 ^ 32)
    (h0 : (9 + (sectorBytes nbSectors).toNat : ℤ) ≤ s.sends 0) (rounds : ℕ) :
    run netHandler (sawaWriteData (rounds + 1) sector nbSectors buffer) s =
      (some 0, s.afterSend (writeMessage sector nbSectors buffer)) := by
  have hlen := length_writeMessage sector nbSectors buffer
  have hretry : ¬ Retry (s.sends 0) := fun hr => absurd hr.neg (by omega)
  obtain ⟨len, hrun⟩ := run_sendRound_last msgWaitall (s := s)
    (Nat.zero_add (writeMessage sector nbSectors buffer).length) hretry (by omega)
  rw [sawaWriteData, run_afterConnect, if_pos hc, if_neg (by decide), run_bind, sent_length hn,
    ← hlen, tcpClientSend, run_loop_leave _ _ hrun]
  rfl

end SawaDriverRun
