import SaWa.SawaDriverWrites

/-! Where `processRequest` looks for the fields of a frame. The operation, the offset, the size and
the payload are each fetched at a fixed position, whatever the length of the frame; here every
load from the frame is a call of its own, so that a run shows which bytes it reads. -/
namespace SawaFrameBounds

open EffectProgram RangeStore LittleEndian SawaProtocol SawaServer SawaServerRun SawaDriverWrites

/-- `load` reads `n` bytes at position `p` of the frame, and `enterWriteFile` shows the size that
`writeFile` is entered with. -/
inductive Access where
  | call (e : Call)
  | load (p n : ℕ)
  | enterWriteFile (size : UInt32)

abbrev Loaded : Access → Type
  | .call e => Answer e
  | .load _ _ => List UInt8
  | .enterWriteFile _ => Unit

abbrev AccessM := Prog Access Loaded

/-- Code that does not touch the frame. -/
def lift {α : Type} : ServerM α → AccessM α
  | .ret a => .ret a
  | .call e k => .call (.call e) fun r => lift (k r)

def access (e : Access) : AccessM (Loaded e) := perform e

def loadByte (p : ℕ) : AccessM UInt8 := do
  let bytes ← access (.load p 1)
  return bytes.headD 0

def loadWord (p : ℕ) : AccessM UInt32 := do
  let bytes ← access (.load p 4)
  return wordOf bytes

/-- `SawaServer::writeFile`, its payload at position `addr` of the frame. -/
def writeFile (addr : ℕ) (offset size : UInt32) : AccessM Unit := do
  access (.enterWriteFile size)
  if ← lift (checkValidRequest offset size) then
    let seek ← access (.call (.fseek offset.toNat))
    if seek ≥ 0 then
      let bytes ← access (.load addr size.toNat)
      let count ← access (.call (.fwrite bytes))
      if count ≥ 0 then
        access (.call .sync)
        access (.call (.write [sawaMsgOk]))
        return
    access (.call (.write [sawaMsgErr]))

/-- `SawaServer::processRequest`. Every command but INFO has its offset fetched. -/
def processRequest (size : UInt32) : AccessM Unit := do
  let op ← loadByte 0
  if op = sawaInfo then
    lift sendInfo
    lift (updateScreen infoCol)
  else
    let offset ← loadWord 1
    if op = sawaRead then
      let size ← loadWord 5
      lift (readFile offset size)
      lift (updateScreen readCol)
    else if op = sawaWrite then
      writeFile 5 offset (size - 5)
      lift (updateScreen writeCol)

/-- The loads are answered from the memory that the frame is at the start of. -/
def frameHandler {σ : Type} (h : Handler Call Answer σ) (addr : Mem) : Handler Access Loaded σ
  | .call e, s => h e s
  | .load p n, s => (load addr p n, s)
  | .enterWriteFile _, s => ((), s)

section Run
variable {σ α : Type} {h : Handler Call Answer σ} {addr : Mem} {s : σ}

theorem run_lift (p : ServerM α) : run (frameHandler h addr) (lift p) s = run h p s := by
  induction p generalizing s with
  | ret => rfl
  | call e k ih => exact ih _

theorem run_loadByte (p : ℕ) : run (frameHandler h addr) (loadByte p) s = (addr p, s) := rfl

theorem run_loadWord (p : ℕ) : run (frameHandler h addr) (loadWord p) s = (wordAt addr p, s) := rfl

/-- A handler that makes nothing of the entries of functions. -/
def IgnoresEntries (h : Handler Call Answer σ) : Prop := ∀ f s, (h (.enter f) s).2 = s

theorem run_writeFile_eq (hh : IgnoresEntries h) (p : ℕ) (offset size : UInt32) :
    run (frameHandler h addr) (writeFile p offset size) s =
      run h (SawaServer.writeFile (fun i => addr (p + i)) offset size) s := by
  have hload : load (fun i => addr (p + i)) 0 size.toNat = load addr p size.toNat :=
    load_shift addr p 0 size.toNat
  have hmark : (frameHandler h addr (.enterWriteFile size) s).2 = s := rfl
  rw [writeFile, SawaServer.writeFile, access, perform_bind, perform_bind, run_call, run_call,
    hh _ s, hmark, run_bind, run_bind, run_lift, hload]
  cases (run h (checkValidRequest offset size) s).1 with
  | false => rfl
  | true =>
    simp only [access, perform_bind, run_call, frameHandler, if_true]
    by_cases hs : (h (.fseek offset.toNat) (run h (checkValidRequest offset size) s).2).1 ≥ 0
    · simp only [hs, if_true, run_call, ge_iff_le, Nat.zero_le]
      rfl
    · simp only [hs, if_false]
      rfl

/-- The loads made explicit, the program is the one of the server. -/
theorem run_processRequest_eq (hh : IgnoresEntries h) (size : UInt32) :
    run (frameHandler h addr) (processRequest size) s =
      run h (SawaServer.processRequest addr size) s := by
  rw [processRequest, SawaServer.processRequest, run_bind, run_loadByte, perform_bind, run_call,
    hh _ s]
  by_cases hi : addr 0 = sawaInfo
  · simp only [if_pos hi, run_bind, run_lift]
  by_cases hr : addr 0 = sawaRead
  · simp only [if_neg hi, if_pos hr, run_bind, run_lift, run_loadWord]
  by_cases hw : addr 0 = sawaWrite
  · simp only [if_neg hi, if_neg hr, if_pos hw, run_bind, run_lift, run_loadWord,
      run_writeFile_eq hh]
  · simp only [if_neg hi, if_neg hr, if_neg hw, run_bind, run_loadWord]
    rfl

end Run

/-- A load is inside a frame of this size, and `writeFile` is entered with the size of what
follows the first five bytes. -/
def Access.Inside (size : ℕ) : Access → Prop
  | .call _ => True
  | .load p n => p + n ≤ size
  | .enterWriteFile n => n.toNat + 5 = size

/-- A READ without its size field, or a WRITE without its offset. -/
def Short (addr : Mem) (size : UInt32) : Prop :=
  (addr 0 = sawaRead ∧ size.toNat < 9) ∨ (addr 0 = sawaWrite ∧ size.toNat < 5)

/-- The frame at `addr` is all that `processRequest` reads, `writeFile` gets the size of its
payload, and without the fields of its command it has no effect on the file. -/
structure StaysInFrame (addr : Mem) (size : UInt32) : Prop where
  inside : ∀ (σ : Type) (h : Handler Call Answer σ) (s : σ),
    AllCalls (frameHandler h addr) (fun c => c.1.Inside size.toNat) (processRequest size) s
  harmless : Short addr size → ∀ w : World,
    (run (frameHandler sysHandler addr) (processRequest size) w).2.1.fp.contents = w.1.fp.contents

/-- The frame reaches to the end of the last field that is fetched for its operation. -/
def HoldsFields (addr : Mem) (size : UInt32) : Prop :=
  if addr 0 = sawaInfo then 1 ≤ size.toNat
  else if addr 0 = sawaRead then 9 ≤ size.toNat
  else 5 ≤ size.toNat

instance (addr : Mem) (size : UInt32) : Decidable (HoldsFields addr size) := by
  unfold HoldsFields
  infer_instance

section Inside
variable {σ α : Type} {h : Handler Call Answer σ} {addr : Mem} {s : σ} {n : ℕ}

theorem inside_lift (p : ServerM α) :
    AllCalls (frameHandler h addr) (fun c => c.1.Inside n) (lift p) s := by
  induction p generalizing s with
  | ret => exact allCalls_ret _ _ _
  | call e k ih => exact (allCalls_call _).mpr ⟨trivial, ih _⟩

theorem inside_loadByte (p : ℕ) :
    AllCalls (frameHandler h addr) (fun c => c.1.Inside n) (loadByte p) s ↔ p + 1 ≤ n := by
  rw [loadByte, access, perform_bind, allCalls_call]
  exact and_iff_left (allCalls_ret _ _ _)

theorem inside_loadWord (p : ℕ) :
    AllCalls (frameHandler h addr) (fun c => c.1.Inside n) (loadWord p) s ↔ p + 4 ≤ n := by
  rw [loadWord, access, perform_bind, allCalls_call]
  exact and_iff_left (allCalls_ret _ _ _)

/-- The payload is loaded only when the request is admitted, but its size is passed before. -/
theorem inside_writeFile {p : ℕ} {offset size : UInt32} (hp : p + size.toNat ≤ n) :
    AllCalls (frameHandler h addr) (fun c => c.1.Inside n) (writeFile p offset size) s ↔
      size.toNat + 5 = n := by
  rw [writeFile, access, perform_bind, allCalls_call, allCalls_bind]
  refine and_iff_left ⟨inside_lift _, ?_⟩
  rw [run_lift]
  cases (run h (checkValidRequest offset size)
      (frameHandler h addr (.enterWriteFile size) s).2).1 with
  | false => exact allCalls_ret _ _ _
  | true =>
    simp only [access, perform_bind, if_true]
    rw [allCalls_call]
    refine ⟨trivial, ?_⟩
    split_ifs
    · rw [allCalls_call, allCalls_call]
      refine ⟨hp, trivial, ?_⟩
      simp [Access.Inside]
    · exact (allCalls_perform _).mpr trivial

theorem toNat_payload {size : UInt32} (h5 : 5 ≤ size.toNat) :
    (size - 5).toNat = size.toNat - 5 := by
  have hle : (5 : UInt32) ≤ size := UInt32.le_iff_toNat_le.mpr h5
  exact UInt32.toNat_sub_of_le _ _ hle

theorem inside_processRequest (size : UInt32) :
    AllCalls (frameHandler h addr) (fun c => c.1.Inside size.toNat) (processRequest size) s ↔
      HoldsFields addr size := by
  rw [processRequest, allCalls_bind, inside_loadByte, run_loadByte, HoldsFields]
  by_cases hi : addr 0 = sawaInfo
  · rw [if_pos hi, if_pos hi]
    exact and_iff_left ((allCalls_bind _).mpr ⟨inside_lift _, inside_lift _⟩)
  by_cases hr : addr 0 = sawaRead
  · simp only [if_neg hi, if_pos hr, allCalls_bind, inside_loadWord]
    constructor
    · rintro ⟨-, -, hsize, -⟩
      exact hsize
    · intro h9
      exact ⟨by omega, by omega, h9, inside_lift _, inside_lift _⟩
  by_cases hw : addr 0 = sawaWrite
  · simp only [if_neg hi, if_neg hr, if_pos hw, allCalls_bind, inside_lift, inside_loadWord]
    constructor
    · rintro ⟨-, hoffset, -⟩
      exact hoffset
    · intro h5
      have hpayload := toNat_payload h5
      refine ⟨by omega, h5, ?_, trivial⟩
      rw [inside_writeFile (by omega)]
      omega
  · simp only [if_neg hi, if_neg hr, if_neg hw, allCalls_bind, inside_loadWord]
    constructor
    · rintro ⟨-, hoffset, -⟩
      exact hoffset
    · intro h5
      exact ⟨by omega, h5, allCalls_ret _ _ _⟩

end Inside

/-- A world on an empty file. -/
def emptyWorld : World :=
  (⟨⟨[], 0⟩, fun _ _ => 0, fun _ => 0⟩, ⟨[], fun _ => 0, [], fun _ => 0⟩)

theorem not_short_of_holdsFields {addr : Mem} {size : UInt32} (h : HoldsFields addr size) :
    ¬ Short addr size := by
  rintro (⟨hop, hlt⟩ | ⟨hop, hlt⟩)
  · rw [HoldsFields, hop, if_neg (by decide), if_pos rfl] at h
    omega
  · rw [HoldsFields, hop, if_neg (by decide), if_neg (by decide)] at h
    omega

/-- A frame is all that is read of it, and harmless when it is short, exactly when it holds every
field that is fetched for its operation. -/
theorem stays_in_frame_iff (addr : Mem) (size : UInt32) :
    StaysInFrame addr size ↔ HoldsFields addr size := by
  constructor
  · intro h
    exact (inside_processRequest size).mp (h.inside World sysHandler emptyWorld)
  · intro h
    constructor
    · intro σ hσ s
      exact (inside_processRequest size).mpr h
    · intro hshort
      exact absurd hshort (not_short_of_holdsFields h)

/-- A WRITE of a single byte at offset 0. -/
def smallWrite : Mem := store (fun _ => 0) 0 (Request.write 0 [7]).frame

theorem smallWrite_stays_in_frame : StaysInFrame smallWrite 6 :=
  (stays_in_frame_iff smallWrite 6).mpr (by decide)

/-- The first four bytes of a WRITE at offset 1, before memory that is zero. -/
def cutWrite : Mem := store (fun _ => 0) 0 [sawaWrite, 1, 0, 0]

/-- For this frame `writeFile` gets the size 2^32 - 1, the sum with the offset wraps to zero, and
the file is filled with memory that is not the frame's. -/
theorem cut_write_leaves_frame :
    (run (frameHandler sysHandler cutWrite) (processRequest 4) emptyWorld).2.1.fp.contents.length =
        2 ^ 32 ∧
      ¬ ∀ addr (size : UInt32), 1 ≤ size.toNat → size.toNat ≤ 32768 → StaysInFrame addr size := by
  constructor
  · have hcut : cutWrite 0 = sawaWrite ∧ Accepted (wordAt cutWrite 1) (4 - 5) := by decide
    have hword : (wordAt cutWrite 1).toNat = 1 := by decide
    have hsize : ((4 : UInt32) - 5).toNat = 2 ^ 32 - 1 := by decide
    have hne : load cutWrite 5 ((4 : UInt32) - 5).toNat ≠ [] := by
      rw [← List.length_pos_iff, length_load, hsize]
      decide
    rw [run_processRequest_eq fun _ _ => rfl, run_processRequest, contents_processEffect,
      if_pos hcut, length_patch 0 _ _ hne, length_load, hword, hsize]
    rfl
  · intro hall
    have hcut := (stays_in_frame_iff cutWrite 4).mp (hall cutWrite 4 (by decide) (by decide))
    exact absurd hcut (by decide)

end SawaFrameBounds
