import SaWa.SawaServerRun

/-! What a READ sends of the block it is read into. `readFile` sends the whole block, of the size
asked for, while `fread` fills as much of it as the file holds from the offset on; the check
before it compares with the size a new file is given, not with that of the file. -/
namespace SawaReadLeak

open EffectProgram RangeStore SawaProtocol SawaServer SawaServerRun

/-- The same world, with `block` for the next block that the allocator hands out. -/
def withBlock (w : World) (block : Mem) : World :=
  ({ w.1 with heap := Function.update w.1.heap 0 block }, w.2)

/-- What the connection has been sent when the READ has returned. -/
def sentAfterRead (offset size : UInt32) (w : World) : List (List UInt8) :=
  (run sysHandler (readFile offset size) w).2.2.output

/-- Runs of the READ that differ only in what its block held send the same bytes. -/
def SendsSame (offset size : UInt32) (w : World) : Prop :=
  ∀ block block' : Mem,
    sentAfterRead offset size (withBlock w block) = sentAfterRead offset size (withBlock w block')

/-- The server on a file that it finds, before its first request. -/
def opened (contents : List UInt8) (heap : ℕ → Mem) (stats : Mem) (c : Conn) : World :=
  (⟨getFilesystemFile (some contents), heap, stats⟩, c)

@[simp] theorem fp_withBlock (w : World) (block : Mem) : (withBlock w block).1.fp = w.1.fp := rfl

@[simp] theorem heap_withBlock (w : World) (block : Mem) :
    (withBlock w block).1.heap 0 = block := by
  simp [withBlock]

/-- The bytes the file holds come first, and the block's own bytes fill the rest. -/
theorem readBuffer_eq (s : Shared) (offset size : ℕ) :
    readBuffer s offset size =
      slice s.fp.contents offset size ++
        load (s.heap 0) (slice s.fp.contents offset size).length
          (size - (slice s.fp.contents offset size).length) :=
  load_store_past _ (length_slice_le _ _ _)

section Read
variable {offset size : UInt32} {w : World}

theorem sentAfterRead_eq (h : Accepted offset size) :
    sentAfterRead offset size w =
      w.2.output ++ [readBuffer w.1 offset.toNat size.toNat] := by
  unfold sentAfterRead
  rw [run_readFile, readFileEffect, if_pos h]
  rfl

theorem sends_same_of_filled (h : Accepted offset size)
    (hfill : (slice w.1.fp.contents offset.toNat size.toNat).length = size.toNat) :
    SendsSame offset size w := by
  intro block block'
  simp only [sentAfterRead_eq h, readBuffer_eq, fp_withBlock, hfill, Nat.sub_self, load_zero]
  rfl

/-- The first byte that `fread` leaves alone is sent as it was. -/
theorem filled_of_sends_same (h : Accepted offset size) (hs : SendsSame offset size w) :
    (slice w.1.fp.contents offset.toNat size.toNat).length = size.toNat := by
  have hle := length_slice_le w.1.fp.contents offset.toNat size.toNat
  by_contra hne
  have hsent := hs (fun _ => 0) (fun _ => 1)
  simp only [sentAfterRead_eq h, readBuffer_eq, fp_withBlock, heap_withBlock] at hsent
  have hout : (withBlock w fun _ => 0).2.output = (withBlock w fun _ => 1).2.output := rfl
  rw [hout, List.append_cancel_left_eq, List.cons.injEq, List.append_cancel_left_eq] at hsent
  have hbyte := load_inj hsent.1 le_rfl (by omega)
  exact absurd hbyte (by decide)

theorem sends_same_iff (h : Accepted offset size) :
    SendsSame offset size w ↔
      size.toNat = 0 ∨ offset.toNat + size.toNat ≤ w.1.fp.contents.length := by
  rw [← length_slice_eq_iff]
  constructor
  · exact filled_of_sends_same h
  · exact sends_same_of_filled h

end Read

/-- Whatever was served before, an accepted READ shows nothing of its block exactly when the
file holds the whole range. -/
theorem read_leaks_nothing_iff (contents : List UInt8) (heap : ℕ → Mem) (stats : Mem) (c : Conn)
    (frames : List (List UInt8)) {offset size : UInt32} (h : Accepted offset size) :
    SendsSame offset size (after frames (opened contents heap stats c)) ↔
      size.toNat = 0 ∨ offset.toNat + size.toNat ≤
        (after frames (opened contents heap stats c)).1.fp.contents.length :=
  sends_same_iff h

/-! ### A file of one byte -/

def shortFile : World := opened [7] (fun _ _ => 0) (fun _ => 0) ⟨[], fun _ => 0, [], fun _ => 0⟩

theorem read_of_held_byte_leaks_nothing :
    Accepted 0 1 ∧ SendsSame 0 1 (after [] shortFile) := by
  have h : Accepted 0 1 := by decide
  exact ⟨h, (read_leaks_nothing_iff _ _ _ _ [] h).mpr (Or.inr (by decide))⟩

/-- The second byte of the reply is what the block held. -/
theorem read_past_end_leaks :
    Accepted 0 2 ∧ sentAfterRead 0 2 (withBlock shortFile fun _ => 0) = [[7, 0]] ∧
      sentAfterRead 0 2 (withBlock shortFile fun _ => 1) = [[7, 1]] ∧
      ¬ SendsSame 0 2 (after [] shortFile) := by
  refine ⟨by decide, rfl, rfl, ?_⟩
  intro hs
  have hsent := hs (fun _ => 0) (fun _ => 1)
  exact absurd hsent (by decide)

end SawaReadLeak
