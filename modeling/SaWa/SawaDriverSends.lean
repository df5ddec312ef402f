import SaWa.SawaDriverRun

/-! What `tcp_client_send` offers to the kernel and what the kernel takes of it, whatever the
results of `kernel_sendmsg` are. -/
namespace SawaDriverSends

open EffectProgram SawaDriver SawaDriverRun

/-- The code between `repeat_send` and the return, with its two counters as the `int`s they
are. -/
def repeatSend (buf : List UInt8) (flags : ℕ) :
    Int32 × Int32 → DriverM ((Int32 × Int32) ⊕ ℤ) :=
  fun (written, left) => do
    let len ← kernel
      (.sendmsg ((buf.drop written.toInt.toNat).take left.toInt64.toUInt64.toNat) flags)
    if len = -erestartsys ∨ (flags &&& msgDontwait = 0 ∧ len = -eagain) then
      return .inl (written, left)
    if 0 < len then
      let written := written + Int32.ofInt len
      let left := left - Int32.ofInt len
      if left ≠ 0 then return .inl (written, left)
      return .inr (if written ≠ 0 then written.toInt else len)
    return .inr (if written ≠ 0 then written.toInt else len)

def tcpClientSendInt (rounds : ℕ) (buf : List UInt8) (length flags : ℕ) : DriverM (Option ℤ) :=
  loop (repeatSend buf flags) rounds (0, Int32.ofInt length)

/-- The bytes that a call of `kernel_sendmsg` is offered, and its result. -/
def sent : KernelCall × Net → Option (List UInt8 × ℤ)
  | (.sendmsg bytes flags, s) => some (bytes, (netHandler (.sendmsg bytes flags) s).1)
  | _ => none

def accepted (t : List (List UInt8 × ℤ)) : List UInt8 :=
  t.flatMap fun (bytes, len) => bytes.take len.toNat

/-- Every call is offered what the calls before it have left of the buffer. -/
def Offers (buf : List UInt8) : ℕ → List (List UInt8 × ℤ) → Prop
  | _, [] => True
  | written, (bytes, len) :: t =>
    bytes = buf.drop written ∧ len ≤ bytes.length ∧ Offers buf (written + len.toNat) t

/-- The calls `t` send `buf`, and `tcp_client_send` returns `ret`. -/
structure Sends (buf : List UInt8) (t : List (List UInt8 × ℤ)) (ret : ℤ) : Prop where
  offers : Offers buf 0 t
  in_order : accepted t <+: buf
  ret_positive : accepted t ≠ [] → ret = (accepted t).length
  ret_last : accepted t = [] → t.getLast?.map Prod.snd = some ret
  whole : buf ≠ [] → (ret = buf.length ↔ accepted t = buf)

section Trace
variable {buf : List UInt8} {written : ℕ} {t : List (List UInt8 × ℤ)} {ret : ℤ}

@[simp] theorem accepted_cons (bytes : List UInt8) (len : ℤ) (t : List (List UInt8 × ℤ)) :
    accepted ((bytes, len) :: t) = bytes.take len.toNat ++ accepted t := rfl

theorem Offers.accepted_prefix (h : Offers buf written t) :
    accepted t <+: buf.drop written := by
  induction t generalizing written with
  | nil => exact List.nil_prefix
  | cons c t ih =>
    obtain ⟨bytes, len⟩ := c
    obtain ⟨rfl, -, hrest⟩ := h
    have hprefix := ih hrest
    rw [← List.drop_drop] at hprefix
    calc accepted ((buf.drop written, len) :: t)
      _ <+: (buf.drop written).take len.toNat ++ (buf.drop written).drop len.toNat :=
        (List.prefix_append_right_inj _).2 hprefix
      _ = buf.drop written := List.take_append_drop _ _

theorem Offers.last_accepted (h : Offers buf written t)
    (hlast : t.getLast?.map Prod.snd = some ret) (hpos : 0 < ret) : accepted t ≠ [] := by
  induction t generalizing written with
  | nil => simp at hlast
  | cons c t ih =>
    obtain ⟨bytes, len⟩ := c
    obtain ⟨-, hle, hrest⟩ := h
    rw [accepted_cons]
    cases t with
    | nil =>
      obtain rfl : len = ret := by simpa using hlast
      have hlen : (bytes.take len.toNat).length = len.toNat := by
        rw [List.length_take]
        omega
      intro hnil
      rw [(List.append_eq_nil_iff.1 hnil).1, List.length_nil] at hlen
      omega
    | cons c' t =>
      rw [List.getLast?_cons_cons] at hlast
      exact List.append_ne_nil_of_right_ne_nil _ (ih hrest hlast)

/-- What is returned after the calls `t`, which come after `written` bytes. -/
def Returns (written : ℕ) (t : List (List UInt8 × ℤ)) (ret : ℤ) : Prop :=
  if written + (accepted t).length ≠ 0 then ret = (written + (accepted t).length : ℕ)
  else t.getLast?.map Prod.snd = some ret

theorem Returns.cons {bytes : List UInt8} {len : ℤ} (hlen : len ≤ bytes.length) (ht : t ≠ [])
    (h : Returns (written + len.toNat) t ret) : Returns written ((bytes, len) :: t) ret := by
  have hsum : written + (accepted ((bytes, len) :: t)).length =
      written + len.toNat + (accepted t).length := by
    rw [accepted_cons, List.length_append, List.length_take]
    omega
  obtain ⟨c, t, rfl⟩ := List.exists_cons_of_ne_nil ht
  unfold Returns at h ⊢
  rwa [hsum, List.getLast?_cons_cons]

theorem Returns.last {bytes : List UInt8} {len : ℤ} (hlen : len ≤ bytes.length) :
    Returns written [(bytes, len)]
      (if written + len.toNat ≠ 0 then ((written + len.toNat : ℕ) : ℤ) else len) := by
  have hsum : (accepted [(bytes, len)]).length = len.toNat := by
    rw [accepted_cons, List.length_append, List.length_take]
    simp [accepted]
    omega
  rw [Returns, hsum]
  split <;> rfl

theorem sends_of_returns (hoffers : Offers buf 0 t) (hret : Returns 0 t ret) :
    Sends buf t ret := by
  have hprefix : accepted t <+: buf := hoffers.accepted_prefix
  have hpositive : accepted t ≠ [] → ret = (accepted t).length := by
    intro hne
    rwa [Returns, Nat.zero_add, if_pos (by simpa using hne)] at hret
  have hlast : accepted t = [] → t.getLast?.map Prod.snd = some ret := by
    intro hnil
    rwa [Returns, Nat.zero_add, if_neg (by simp [hnil])] at hret
  refine ⟨hoffers, hprefix, hpositive, hlast, fun hbuf => ⟨fun hall => ?_, fun hall => ?_⟩⟩
  · have hpos : 0 < ret := by
      have := List.length_pos_iff.2 hbuf
      omega
    have hne : accepted t ≠ [] := fun hnil => hoffers.last_accepted (hlast hnil) hpos hnil
    apply hprefix.eq_of_length
    have := hpositive hne
    omega
  · rw [hpositive (hall ▸ hbuf), hall]

end Trace

section Int
variable {n : ℕ}

theorem toInt_ofInt_natCast (hn : n < 2 ^ 31) : (Int32.ofInt n).toInt = n :=
  Int32.toInt_ofInt_of_le (by omega) (by omega)

/-- The `size_t` of an `int` that is not negative. -/
theorem toNat_toUInt64 (hn : n < 2 ^ 31) : (Int32.ofInt n).toInt64.toUInt64.toNat = n := by
  have hint : (Int32.ofInt n).toInt64.toInt = n := by
    rw [Int32.toInt_toInt64, toInt_ofInt_natCast hn]
  have hnonneg : 0 ≤ (Int32.ofInt n).toInt64 := by
    rw [Int64.le_iff_toInt_le, hint]
    exact Int.natCast_nonneg n
  rw [Int64.toNat_toUInt64_of_le hnonneg, Int64.toNatClampNeg, hint, Int.toNat_natCast]

theorem ofInt_ne_zero (hn : n < 2 ^ 31) : Int32.ofInt n ≠ 0 ↔ n ≠ 0 := by
  rw [ne_eq, ← Int32.toInt_inj, toInt_ofInt_natCast hn, Int32.toInt_zero, Int.natCast_eq_zero]

/-- The value of `written ? written : len`. -/
theorem written_or_len (hn : n < 2 ^ 31) (len : ℤ) :
    (if Int32.ofInt n ≠ 0 then (Int32.ofInt n).toInt else len) = if n ≠ 0 then (n : ℤ) else len :=
  if_congr (ofInt_ne_zero hn) (toInt_ofInt_natCast hn) rfl

end Int

section Rounds
variable {buf : List UInt8} {flags written left : ℕ}

/-- How `repeatSend` goes on after the result `len`. -/
def outcomeInt (flags : ℕ) (written left : Int32) (len : ℤ) : (Int32 × Int32) ⊕ ℤ :=
  if Again flags len then .inl (written, left)
  else if 0 < len then
    if left - Int32.ofInt len ≠ 0 then .inl (written + Int32.ofInt len, left - Int32.ofInt len)
    else .inr (if written + Int32.ofInt len ≠ 0 then (written + Int32.ofInt len).toInt else len)
  else .inr (if written ≠ 0 then written.toInt else len)

theorem repeatSend_eq (w l : Int32) :
    repeatSend buf flags (w, l) =
      kernel (.sendmsg ((buf.drop w.toInt.toNat).take l.toInt64.toUInt64.toNat) flags) >>=
        fun len => .ret (outcomeInt flags w l len) := by
  rw [repeatSend]
  congr 1
  funext (len : ℤ)
  show (if Again flags len then _ else _) = Prog.ret (outcomeInt flags w l len)
  unfold outcomeInt
  by_cases hagain : Again flags len
  · rw [if_pos hagain, if_pos hagain]
    rfl
  by_cases hpos : 0 < len
  · by_cases hleft : l - Int32.ofInt len = 0 <;> simp [hagain, hpos, hleft]
  · simp [hagain, hpos]

def counters : ℕ × ℕ → Int32 × Int32 :=
  fun (written, left) => (Int32.ofInt written, Int32.ofInt left)

/-- Nothing overflows: the `int` counters are the natural numbers of `sendRound`. -/
theorem outcomeInt_counters {len : ℤ} (hlt : written + left < 2 ^ 31) (hlen : len ≤ left) :
    outcomeInt flags (Int32.ofInt written) (Int32.ofInt left) len =
      (outcome flags written left len).map counters id := by
  unfold outcomeInt outcome
  by_cases hagain : Again flags len
  · have hzero : len.toNat = 0 := Int.toNat_of_nonpos hagain.retry.neg.le
    rw [if_pos hagain, if_pos (.inl hagain), hzero]
    rfl
  rw [if_neg hagain]
  by_cases hpos : 0 < len
  · have hwritten : Int32.ofInt written + Int32.ofInt len =
        Int32.ofInt (written + len.toNat : ℕ) := by
      rw [← Int32.ofInt_add]
      congr 1
      omega
    have hleft : Int32.ofInt left - Int32.ofInt len = Int32.ofInt (left - len.toNat : ℕ) := by
      rw [← Int32.ofInt_sub, Int.ofNat_sub (by omega), Int.toNat_of_nonneg hpos.le]
    rw [if_pos hpos, hwritten, hleft, written_or_len (by omega)]
    by_cases hmore : left - len.toNat ≠ 0
    · rw [if_pos ((ofInt_ne_zero (by omega)).2 hmore), if_pos (.inr ⟨hpos, hmore⟩)]
      rfl
    · have hstop : ¬(Again flags len ∨ 0 < len ∧ left - len.toNat ≠ 0) :=
        fun h => h.elim hagain fun h => hmore h.2
      rw [if_neg (mt (ofInt_ne_zero (by omega)).1 hmore), if_neg hstop]
      rfl
  · have hzero : len.toNat = 0 := Int.toNat_of_nonpos (not_lt.1 hpos)
    have hstop : ¬(Again flags len ∨ 0 < len ∧ left - len.toNat ≠ 0) :=
      fun h => h.elim hagain fun h => hpos h.1
    rw [if_neg hpos, if_neg hstop, written_or_len (by omega), hzero]
    rfl

theorem outcome_next {len : ℤ} {c : ℕ × ℕ} (h : outcome flags written left len = .inl c) :
    c = (written + len.toNat, left - len.toNat) := by
  unfold outcome at h
  split at h
  · exact (Sum.inl.inj h).symm
  · cases h

theorem outcome_leave {len ret : ℤ} (h : outcome flags written left len = .inr ret) :
    ret = if written + len.toNat ≠ 0 then ((written + len.toNat : ℕ) : ℤ) else len := by
  unfold outcome at h
  split at h
  · cases h
  · exact (Sum.inr.inj h).symm

end Rounds

section Runs
variable {buf : List UInt8} {flags written left : ℕ} {s : Net} {ret : ℤ}

theorem calls_sendRound (hbuf : written + left = buf.length) :
    calls netHandler (sendRound buf flags (written, left)) s =
      [(.sendmsg (buf.drop written) flags, s)] := by
  rw [sendRound_eq hbuf]
  rfl

theorem observe_sendRound (hbuf : written + left = buf.length) :
    observe sent netHandler (sendRound buf flags (written, left)) s =
      [(buf.drop written, result s (buf.drop written))] := by
  rw [observe, calls_sendRound hbuf]
  rfl

theorem result_le (hbuf : written + left = buf.length) : result s (buf.drop written) ≤ left := by
  rw [result, (offered_all hbuf).2]
  exact min_le_right _ _

/-- The `int` counters are never told apart from natural numbers. -/
theorem tcpClientSendInt_eq (hlt : buf.length < 2 ^ 31) (rounds : ℕ) :
    calls netHandler (tcpClientSendInt rounds buf buf.length flags) s =
        calls netHandler (tcpClientSend rounds buf buf.length flags) s ∧
      run netHandler (tcpClientSendInt rounds buf buf.length flags) s =
        run netHandler (tcpClientSend rounds buf buf.length flags) s := by
  have hround : ∀ (c : ℕ × ℕ) (s : Net), c.1 + c.2 = buf.length →
      repeatSend buf flags (counters c) = kernel (.sendmsg (buf.drop c.1) flags) >>= fun len =>
        .ret (outcomeInt flags (Int32.ofInt c.1) (Int32.ofInt c.2) len) := by
    intro c s hbuf
    rw [counters, repeatSend_eq, toInt_ofInt_natCast (by omega), toNat_toUInt64 (by omega),
      Int.toNat_natCast, (offered_all hbuf).1]
  apply @loop_map (I := fun c => c.1 + c.2 = buf.length) (g := counters) (c := (0, buf.length))
  · intro c s hbuf
    rw [hround c s hbuf, calls_sendRound hbuf]
    rfl
  · intro c s hbuf
    rw [hround c s hbuf, run_sendRound hbuf]
    have hle := @result_le buf c.1 c.2 s hbuf
    rw [← outcomeInt_counters (by omega) hle]
    rfl
  · intro c c' s hbuf hnext
    rw [run_sendRound hbuf] at hnext
    have hle := @result_le buf c.1 c.2 s hbuf
    obtain rfl := outcome_next hnext
    show c.1 + _ + (c.2 - _) = buf.length
    omega
  · exact Nat.zero_add _

theorem sends_loop {n : ℕ} {t : List (List UInt8 × ℤ)} (hbuf : written + left = buf.length)
    (ht : observe sent netHandler (loop (sendRound buf flags) n (written, left)) s = t)
    (h : (run netHandler (loop (sendRound buf flags) n (written, left)) s).1 = some ret) :
    t ≠ [] ∧ Offers buf written t ∧ Returns written t ret := by
  induction n generalizing written left s t with
  | zero => simp [run_loop_zero] at h
  | succ n ih =>
    have hround := @run_sendRound buf flags written left s hbuf
    have hle := @result_le buf written left s hbuf
    have hlen : (buf.drop written).length = left := (offered_all hbuf).2
    cases hout : outcome flags written left (result s (buf.drop written)) with
    | inl c =>
      obtain rfl := outcome_next hout
      rw [hout] at hround
      rw [run_loop_next _ _ hround] at h
      rw [observe_loop_next _ _ _ hround, observe_sendRound hbuf] at ht
      obtain ⟨hne, hoffers, hret⟩ := ih (by omega) rfl h
      subst ht
      exact ⟨List.cons_ne_nil _ _, ⟨rfl, by rwa [hlen], hoffers⟩,
        Returns.cons (by rwa [hlen]) hne hret⟩
    | inr b =>
      rw [hout] at hround
      rw [run_loop_leave _ _ hround] at h
      rw [observe_loop_leave _ _ _ hround, observe_sendRound hbuf] at ht
      obtain rfl : b = ret := Option.some.inj h
      subst ht
      refine ⟨List.cons_ne_nil _ _, ⟨rfl, by rwa [hlen], trivial⟩, ?_⟩
      rw [outcome_leave hout]
      apply Returns.last
      rwa [hlen]

/-- Every send that comes to an end has handed the buffer over in order. -/
theorem tcpClientSendInt_sends {rounds : ℕ} (hlt : buf.length < 2 ^ 31)
    (h : (run netHandler (tcpClientSendInt rounds buf buf.length flags) s).1 = some ret) :
    Sends buf (observe sent netHandler (tcpClientSendInt rounds buf buf.length flags) s) ret := by
  obtain ⟨hcalls, hrun⟩ := @tcpClientSendInt_eq buf flags s hlt rounds
  rw [hrun] at h
  rw [observe, hcalls]
  obtain ⟨-, hoffers, hret⟩ := sends_loop (Nat.zero_add _) rfl h
  exact sends_of_returns hoffers hret

def resultsOf (sends : List ℤ) : Net :=
  ⟨0, 0, fun k => sends.getD k 0, fun _ => .ok 0, [], [], fun _ => 0, 0⟩

/-- Two bytes and then one, each after a result that is tried again. -/
theorem sends_after_retries :
    let t : List (List UInt8 × ℤ) := [([1, 2, 3], -512), ([1, 2, 3], 2), ([3], -11), ([3], 1)]
    observe sent netHandler (tcpClientSendInt 4 [1, 2, 3] 3 msgWaitall)
        (resultsOf [-512, 2, -11, 1]) = t ∧
      Sends [1, 2, 3] t 3 := by
  have ht : observe sent netHandler (tcpClientSendInt 4 [1, 2, 3] 3 msgWaitall)
      (resultsOf [-512, 2, -11, 1]) =
        [([1, 2, 3], -512), ([1, 2, 3], 2), ([3], -11), ([3], 1)] := by rfl
  refine ⟨ht, ?_⟩
  rw [← ht]
  exact tcpClientSendInt_sends (by decide) (by rfl)

end Runs

end SawaDriverSends
