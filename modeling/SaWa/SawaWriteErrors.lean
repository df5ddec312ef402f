import SaWa.SawaServerRun

/-! A WRITE over stdio calls that may fail: `fseek` returns what it likes and `fwrite` transfers
any part of what it is given. `writeFile` tests both results, but the count of `fwrite` is
unsigned and its test never fails. -/
namespace SawaWriteErrors

open EffectProgram RangeStore SawaProtocol SawaServer SawaServerRun

/-- What `fseek` returns, and how many bytes `fwrite` is able to transfer. -/
structure Outcome where
  seek : ℤ
  count : ℕ
  deriving DecidableEq, Repr

/-- A failed `fseek` leaves the position alone, and `fwrite` transfers the first bytes of what it
is given. -/
def faultyHandler (o : Outcome) : Handler Call Answer World
  | .fseek offset, (s, c) =>
    (o.seek, (if 0 ≤ o.seek then s.withFile (s.fp.fseek offset) else s, c))
  | .fwrite bytes, (s, c) =>
    (min o.count bytes.length, (s.withFile (s.fp.fwrite (bytes.take o.count)), c))
  | e, w => sysHandler e w

def transferred (o : Outcome) : Call × World → Option ℕ
  | (.fwrite bytes, _) => some (min o.count bytes.length)
  | _ => none

def bytesWritten (o : Outcome) (addr : Mem) (offset size : UInt32) (w : World) : ℕ :=
  (observe (transferred o) (faultyHandler o) (writeFile addr offset size) w).foldl (· + ·) 0

/-- One byte is sent, OK only for a WRITE that is in the file as a whole, and the error code
whenever a part of it is missing. -/
def RepliesRight (o : Outcome) (addr : Mem) (offset size : UInt32) (w : World) : Prop :=
  ∃ b, (run (faultyHandler o) (writeFile addr offset size) w).2.2.output = w.2.output ++ [[b]] ∧
    (b = sawaMsgOk → bytesWritten o addr offset size w = size.toNat) ∧
      (bytesWritten o addr offset size w < size.toNat → b = sawaMsgErr)

section WriteFile
variable {o : Outcome} {addr : Mem} {offset size : UInt32} {w : World}

/-- `fseek` fails, or the bytes that `fwrite` transfers are acknowledged, however many. -/
theorem run_writeFile_faulty (h : Accepted offset size) :
    (run (faultyHandler o) (writeFile addr offset size) w).2 =
      if 0 ≤ o.seek then
        (w.1.withFile
          ((w.1.fp.fseek offset.toNat).fwrite ((load addr 0 size.toNat).take o.count)),
          w.2.reply [sawaMsgOk])
      else (w.1, w.2.reply [sawaMsgErr]) := by
  rw [writeFile, perform_bind, run_call, checkValidRequest_accepted h]
  by_cases hs : 0 ≤ o.seek
  · simp [faultyHandler, sysHandler, hs]
    rfl
  · simp [faultyHandler, sysHandler, hs]

theorem bytesWritten_eq (h : Accepted offset size) :
    bytesWritten o addr offset size w = if 0 ≤ o.seek then min o.count size.toNat else 0 := by
  rw [bytesWritten, writeFile, perform_bind, observe_call_none _ _ rfl,
    checkValidRequest_accepted h]
  by_cases hs : 0 ≤ o.seek
  · simp only [Prog.ret_bind, perform_bind, if_true, observe, calls_call, faultyHandler, ge_iff_le,
      hs, Nat.zero_le]
    change 0 + min o.count (load addr 0 size.toNat).length = min o.count size.toNat
    simp
  · simp only [Prog.ret_bind, perform_bind, if_true, observe, calls_call, faultyHandler, ge_iff_le,
      hs, if_false]
    rfl

theorem replies_right_iff (o : Outcome) (addr : Mem) {offset size : UInt32}
    (hin : offset.toNat + size.toNat ≤ capacity) (w : World) :
    RepliesRight o addr offset size w ↔ o.seek < 0 ∨ size.toNat ≤ o.count := by
  have hacc : Accepted offset size := by
    rw [accepted_iff]
    exact (Nat.mod_le _ _).trans hin
  unfold RepliesRight
  rw [run_writeFile_faulty hacc, bytesWritten_eq hacc]
  by_cases hs : 0 ≤ o.seek
  · rw [if_pos hs, if_pos hs, or_iff_right (by omega)]
    constructor
    · rintro ⟨b, hout, hok, -⟩
      have hb : sawaMsgOk = b := by simpa [Conn.reply] using hout
      have hall := hok hb.symm
      omega
    · intro hall
      refine ⟨sawaMsgOk, rfl, fun _ => by omega, fun hlt => ?_⟩
      omega
  · rw [if_neg hs, if_neg hs]
    refine iff_of_true ⟨sawaMsgErr, rfl, fun h => ?_, fun _ => rfl⟩ (Or.inl (by omega))
    exact absurd h (by decide)

end WriteFile

def emptyFile : World :=
  (⟨⟨[], 0⟩, fun _ _ => 0, fun _ => 0⟩, ⟨[], fun _ => 0, [], fun _ => 0⟩)

theorem whole_write_replied_right : RepliesRight ⟨0, 1⟩ (fun _ => 7) 0 1 emptyFile :=
  (replies_right_iff ⟨0, 1⟩ (fun _ => 7) (by decide) emptyFile).mpr (Or.inr (by decide))

theorem failed_write_replied_ok :
    (run (faultyHandler ⟨0, 0⟩) (writeFile (fun _ => 7) 0 1) emptyFile).2.2.output =
        [[sawaMsgOk]] ∧
      bytesWritten ⟨0, 0⟩ (fun _ => 7) 0 1 emptyFile = 0 ∧
      ¬ ∀ o addr (offset size : UInt32), offset.toNat + size.toNat ≤ capacity → ∀ w,
        RepliesRight o addr offset size w := by
  have hacc : Accepted 0 1 := by decide
  have hout : (run (faultyHandler ⟨0, 0⟩) (writeFile (fun _ => 7) 0 1) emptyFile).2.2.output =
      [[sawaMsgOk]] := by
    rw [run_writeFile_faulty hacc]
    rfl
  have hnone : bytesWritten ⟨0, 0⟩ (fun _ => 7) 0 1 emptyFile = 0 := by
    rw [bytesWritten_eq hacc]
    rfl
  refine ⟨hout, hnone, ?_⟩
  intro hall
  obtain ⟨b, hb, -, herr⟩ := hall ⟨0, 0⟩ (fun _ => 7) 0 1 (by decide) emptyFile
  have hcode := herr (by rw [hnone]; decide)
  rw [hout, hcode] at hb
  exact absurd hb (by decide)

end SawaWriteErrors
