import SaWa.BufferedFile
import SaWa.SawaSharedStream

/-! What is left of the WRITE requests when the server process is killed. `fwrite` may keep any
part of its bytes in the buffer of `fp` until the next `fseek` or `fclose`; the buffer is lost
with the process, while what has left it stays in the file. `sync` only reaches the latter. -/
namespace SawaDurability

open EffectProgram BufferedFile RangeStore SawaProtocol SawaServer SawaServerRun SawaSharedStream

/-- A WRITE whose `fwrite` has run, and whether it has been answered with `SAWA_MSG_OK`. -/
structure Written where
  offset : UInt32
  payload : List UInt8
  answered : Bool
  deriving DecidableEq, Repr

def Written.at (w : Written) : ℕ → Option UInt8 := written w.offset.toNat w.payload

/-- The server between two calls. `keeps k i` says whether the `k`th `fwrite` to come keeps its
`i`th byte in the buffer; `writes` and `entry`, the function entered last, are only watched. -/
structure Process where
  fp : Stream UInt8
  keeps : ℕ → ℕ → Bool
  heap : ℕ → Mem
  stats : Mem
  conn : Conn
  entry : Option Entry
  writes : List Written

namespace Process

def withFile (m : Process) (fp : Stream UInt8) : Process := { m with fp := fp }

def withConn (m : Process) (c : Conn) : Process := { m with conn := c }

def entered (m : Process) (f : Entry) : Process := { m with entry := some f }

def afterAlloc (m : Process) : Process := { m with heap := fun k => m.heap (k + 1) }

/-- The `fwrite` of the WRITE that has been entered. -/
def noteWrite (m : Process) : Process :=
  match m.entry with
  | some (.writeFile offset payload) => { m with writes := ⟨offset, payload, false⟩ :: m.writes }
  | _ => m

def fwrite (m : Process) (bytes : List UInt8) : Process :=
  { m with
    fp := m.fp.write (m.keeps 0) bytes
    keeps := fun k => m.keeps (k + 1) }.noteWrite

/-- A reply on the socket: `SAWA_MSG_OK` from `writeFile` answers the latest WRITE. -/
def noteReply (m : Process) (bytes : List UInt8) : Process :=
  match m.entry, m.writes with
  | some (.writeFile _ _), w :: ws =>
    if bytes = [sawaMsgOk] then { m with writes := { w with answered := true } :: ws } else m
  | _, _ => m

def reply (m : Process) (bytes : List UInt8) : Process :=
  { m with conn := m.conn.reply bytes }.noteReply bytes

end Process

def stdioHandler : Handler Call Answer Process
  | .enter f, m => ((), m.entered f)
  | .read n, m => (some (m.conn.readBytes n), m.withConn (m.conn.afterRead n))
  | .write bytes, m => ((), m.reply bytes)
  | .alloc _, m => (m.heap 0, m.afterAlloc)
  | .fseek offset, m => (0, m.withFile (m.fp.seek offset))
  | .fread size, m => (m.fp.readCells size, m.withFile (m.fp.read size))
  | .fwrite bytes, m => (bytes.length, m.fwrite bytes)
  | .sync, m => ((), m)
  | .countRequest idx, m => ((), m.withConn (m.conn.counted idx))
  | .threadStatistics, m => (m.stats, m)

/-- `SawaServer::getFilesystemFile`. A new file is written in full, and `keep` says what of it
stays in the buffer. -/
def openFilesystem (keep : ℕ → Bool) : Option (List UInt8) → Stream UInt8
  | some contents => .opened 0 contents
  | none => (Stream.opened 0 []).write keep (List.replicate (nbSectors * 512).toNat 0)

/-- `SawaServer::~SawaServer`. -/
def fclose (m : Process) : Process := m.withFile m.fp.flush

/-- The server before its first request. -/
def started (existing : Option (List UInt8)) (keeps : ℕ → ℕ → Bool) (heap : ℕ → Mem) (stats : Mem)
    (c : Conn) : Process where
  fp := openFilesystem (keeps 0) existing
  keeps := fun k => keeps (k + 1)
  heap := heap
  stats := stats
  conn := c
  entry := none
  writes := []

/-- The states a kill can find: before each call, after the last request and after `fclose`. -/
def killPoints (frames : List (List UInt8)) (m : Process) : List Process :=
  (calls stdioHandler (serve frames) m).map Prod.snd ++
    [(run stdioHandler (serve frames) m).2, fclose (run stdioHandler (serve frames) m).2]

/-- Every byte of an answered WRITE to which no later WRITE has written is in the file. -/
def Durable (m : Process) : Prop :=
  ∀ newer w older, m.writes = newer ++ w :: older → w.answered →
    ∀ a b, w.at a = some b → (∀ v ∈ newer, v.at a = none) → m.fp.stored a = some b

/-- The latest WRITE has not been answered yet, or the buffer holds no byte that the file
lacks. -/
def Settled (m : Process) : Prop :=
  ∀ w ∈ m.writes.head?, w.answered → ∀ a b, m.fp.kept a = some b → m.fp.stored a = some b

/-- What a byte of the disk should be. -/
def lastWritten (ws : List Written) (a : ℕ) : Option UInt8 := ws.findSome? fun w => w.at a

theorem lastWritten_eq_some {ws : List Written} {a : ℕ} {b : UInt8} :
    lastWritten ws a = some b ↔
      ∃ newer w older, ws = newer ++ w :: older ∧ w.at a = some b ∧ ∀ v ∈ newer, v.at a = none :=
  List.findSome?_eq_some_iff

/-! ### One call -/

/-- The stream shows the bytes written last, and its buffer holds bytes of the latest WRITE. -/
structure Buffered (m : Process) : Prop where
  shown : ∀ a b, lastWritten m.writes a = some b → m.fp.view a = some b
  kept : ∀ w ws, m.writes = w :: ws → ∀ a b, m.fp.kept a = some b → w.at a = some b

/-- `fread` and `fwrite` are called after a seek, and `fwrite` by `writeFile` with its payload
and at its offset. -/
def SeekFirst : Call × Process → Prop
  | (.fread _, m) => m.fp.Clean
  | (.fwrite bytes, m) =>
    m.fp.Clean ∧ ∃ offset, m.entry = some (.writeFile offset bytes) ∧ m.fp.pos = offset.toNat
  | _ => True

theorem Buffered.of_eq {m m' : Process} (h : Buffered m) (hfp : m'.fp = m.fp)
    (hw : m'.writes = m.writes) : Buffered m' := by
  constructor
  · rw [hfp, hw]
    exact h.shown
  · rw [hfp, hw]
    exact h.kept

theorem Buffered.flushed {m m' : Process} (h : Buffered m) (hv : ∀ a b, m.fp.view a = some b →
    m'.fp.view a = some b) (hc : m'.fp.Clean) (hw : m'.writes = m.writes) : Buffered m' := by
  constructor
  · intro a b hb
    rw [hw] at hb
    exact hv a b (h.shown a b hb)
  · intro w ws _ a b hk
    rw [hc.kept_eq a] at hk
    cases hk

theorem Buffered.reply {m : Process} (h : Buffered m) (bytes : List UInt8) :
    Buffered (m.reply bytes) := by
  unfold Process.reply Process.noteReply
  split
  · rename_i w ws _ hw
    split
    · constructor
      · intro a b hb
        have hsame : lastWritten m.writes a = some b := by
          rw [hw]
          exact hb
        exact h.shown a b hsame
      · rintro v vs ⟨⟩ a b hk
        exact h.kept w ws hw a b hk
    · exact h.of_eq rfl rfl
  · exact h.of_eq rfl rfl

theorem Buffered.fwrite {m : Process} (h : Buffered m) {bytes : List UInt8}
    (hs : SeekFirst (.fwrite bytes, m)) : Buffered (m.fwrite bytes) := by
  rcases hs with ⟨hc, offset, hentry, hpos⟩
  have hw : m.fwrite bytes =
      { m with
        fp := m.fp.write (m.keeps 0) bytes
        keeps := fun k => m.keeps (k + 1)
        writes := ⟨offset, bytes, false⟩ :: m.writes } := by
    unfold Process.fwrite Process.noteWrite
    simp only [hentry]
  rw [hw]
  constructor
  · intro a b hb
    rcases hat : written offset.toNat bytes a with _ | c
    · apply view_write_outside
      · rwa [hpos]
      · apply h.shown a b
        simpa [lastWritten, Written.at, hat] using hb
    · have hbc : c = b := by simpa [lastWritten, Written.at, hat] using hb
      apply view_write_inside
      rw [hpos, hat, hbc]
  · rintro w ws ⟨⟩ a b hk
    rcases kept_write _ hk with hin | hold
    · rwa [hpos] at hin
    · rw [hc.kept_eq a] at hold
      cases hold

theorem buffered_call (e : Call) (m : Process) (hs : SeekFirst (e, m)) (h : Buffered m) :
    Buffered (stdioHandler e m).2 := by
  cases e with
  | write bytes => exact h.reply bytes
  | fseek offset => exact h.flushed (fun _ _ => view_seek offset) (clean_seek _ _) rfl
  | fwrite bytes => exact h.fwrite hs
  | fread size => exact ⟨h.shown, h.kept⟩
  | _ => exact h.of_eq rfl rfl

/-! ### Whole runs -/

section Runs
variable {α β : Type}

/-- In every run of the program each transfer comes after its seek. -/
def Seeks (p : ServerM α) : Prop := ∀ m, AllCalls stdioHandler SeekFirst p m

theorem seeks_ret (a : α) : Seeks (.ret a) := fun m => allCalls_ret _ a m

theorem seeks_call {e : Call} {k : Answer e → ServerM α} (he : ∀ m, SeekFirst (e, m))
    (hk : ∀ r, Seeks (k r)) : Seeks (.call e k) :=
  fun m => (allCalls_call _).mpr ⟨he m, hk _ _⟩

theorem seeks_bind {p : ServerM α} {f : α → ServerM β} (hp : Seeks p) (hf : ∀ a, Seeks (f a)) :
    Seeks (p >>= f) :=
  fun m => (allCalls_bind _).mpr ⟨hp m, hf _ _⟩

theorem seeks_updateScreen (idx : Fin 3) : Seeks (updateScreen idx) :=
  seeks_call (fun _ => trivial) seeks_ret

theorem seeks_sendInfo : Seeks sendInfo :=
  seeks_call (fun _ => trivial) fun _ => seeks_call (fun _ => trivial) seeks_ret

theorem seeks_readFile (offset size : UInt32) : Seeks (readFile offset size) := by
  by_cases h : Accepted offset size
  · rw [readFile_accepted h]
    intro m
    refine (allCalls_call _).mpr ⟨trivial, ?_⟩
    refine (allCalls_call _).mpr ⟨trivial, ?_⟩
    refine (allCalls_call _).mpr ⟨trivial, ?_⟩
    refine (allCalls_call _).mpr ⟨clean_seek _ _, ?_⟩
    exact (allCalls_perform _).mpr trivial
  · rw [readFile, checkValidRequest_refused h]
    refine seeks_call (fun _ => trivial) fun _ => ?_
    exact seeks_call (fun _ => trivial) fun _ => seeks_ret ()

theorem seeks_writeFile (addr : Mem) (offset size : UInt32) :
    Seeks (writeFile addr offset size) := by
  by_cases h : Accepted offset size
  · rw [writeFile_accepted h]
    intro m
    refine (allCalls_call _).mpr ⟨trivial, ?_⟩
    refine (allCalls_call _).mpr ⟨trivial, ?_⟩
    -- What the seek leaves is a clean stream at the offset.
    refine (allCalls_call _).mpr ⟨⟨clean_seek _ _, offset, rfl, rfl⟩, ?_⟩
    have hrest : Seeks (.call .sync fun _ => .call (.write [sawaMsgOk]) .ret) :=
      seeks_call (fun _ => trivial) fun _ => seeks_call (fun _ => trivial) seeks_ret
    exact hrest _
  · rw [writeFile, checkValidRequest_refused h]
    refine seeks_call (fun _ => trivial) fun _ => ?_
    exact seeks_call (fun _ => trivial) fun _ => seeks_ret ()

theorem seeks_processRequest (addr : Mem) (size : UInt32) : Seeks (processRequest addr size) := by
  rw [processRequest, perform_bind]
  refine seeks_call (fun _ => trivial) fun _ => ?_
  dsimp only
  split_ifs
  · exact seeks_bind seeks_sendInfo fun _ => seeks_updateScreen infoCol
  · exact seeks_bind (seeks_readFile _ _) fun _ => seeks_updateScreen readCol
  · exact seeks_bind (seeks_writeFile _ _ _) fun _ => seeks_updateScreen writeCol
  · exact seeks_ret ()

theorem seeks_serve (frames : List (List UInt8)) : Seeks (serve frames) := by
  induction frames with
  | nil => exact seeks_ret ()
  | cons f fs ih =>
    refine seeks_bind ?_ fun _ => ih
    exact seeks_call (fun _ => trivial) fun _ => seeks_processRequest _ _

end Runs

variable {existing : Option (List UInt8)} {keeps : ℕ → ℕ → Bool} {heap : ℕ → Mem} {stats : Mem}
  {c : Conn} {frames : List (List UInt8)}

theorem buffered_started : Buffered (started existing keeps heap stats c) := by
  constructor
  · intro a b hb
    cases hb
  · intro w ws hw
    cases hw

/-- What every call of the server keeps, and `fclose`, holds wherever a kill finds it. -/
theorem killPoints_invariant {I : Process → Prop} {m₀ : Process} (hstart : I m₀)
    (hcall : ∀ e m, SeekFirst (e, m) → I m → I (stdioHandler e m).2)
    (hclose : ∀ m, I m → I (fclose m)) : ∀ m ∈ killPoints frames m₀, I m := by
  have hrun := calls_preserve stdioHandler hcall (serve frames) (seeks_serve frames m₀) hstart
  intro m hm
  rcases List.mem_append.mp hm with hm | hm
  · obtain ⟨call, hcall, rfl⟩ := List.mem_map.mp hm
    exact hrun.1 call hcall
  · rcases List.mem_cons.mp hm with rfl | hm
    · exact hrun.2
    · rw [List.mem_singleton.mp hm]
      exact hclose _ hrun.2

theorem buffered_killPoints :
    ∀ m ∈ killPoints frames (started existing keeps heap stats c), Buffered m :=
  killPoints_invariant buffered_started buffered_call fun _ hm =>
    hm.flushed (fun _ _ => view_flush) (clean_flush _) rfl

/-! ### The plain stream behind the buffered one -/

/-- A flush would make the file that of the plain stream, which is at the same position. -/
structure ShowsFile (fp : Stream UInt8) (f : FileStream) : Prop where
  length_eq : fp.flush.length = f.contents.length
  cell_eq : fp.flush.cell = image 0 f.contents
  pos_eq : fp.pos = f.pos

section ShowsFile
variable {fp : Stream UInt8} {f : FileStream}

theorem showsFile_opened (contents : List UInt8) :
    ShowsFile (.opened 0 contents) ⟨contents, 0⟩ := by
  have hclean := clean_opened (0 : UInt8) contents
  constructor
  · rw [hclean.length_flush]
    rfl
  · rw [hclean.cell_flush]
    rfl
  · rfl

theorem ShowsFile.seek (h : ShowsFile fp f) (offset : ℕ) :
    ShowsFile (fp.seek offset) (f.fseek offset) := by
  have hclean := clean_seek fp offset
  constructor
  · rw [hclean.length_flush]
    exact h.length_eq
  · rw [hclean.cell_flush]
    exact h.cell_eq
  · rfl

theorem ShowsFile.readCells_eq (h : ShowsFile fp f) (hclean : fp.Clean) (size : ℕ) :
    fp.readCells size = f.freadBytes size := by
  have hlen := h.length_eq
  have hcell := h.cell_eq
  rw [hclean.length_flush] at hlen
  rw [hclean.cell_flush] at hcell
  rw [Stream.readCells, FileStream.freadBytes, slice_eq_load_min 0, hlen, hcell, h.pos_eq]

theorem ShowsFile.read (h : ShowsFile fp f) (hclean : fp.Clean) (size : ℕ) :
    ShowsFile (fp.read size) (f.fread size) := by
  constructor
  · exact h.length_eq
  · exact h.cell_eq
  · rw [Stream.read, FileStream.fread, h.readCells_eq hclean, h.pos_eq]

theorem ShowsFile.write (h : ShowsFile fp f) (keep : ℕ → Bool) (bytes : List UInt8) :
    ShowsFile (fp.write keep bytes) (f.fwrite bytes) := by
  constructor
  · rcases eq_or_ne bytes [] with rfl | hne
    · exact h.length_eq
    · rw [length_flush_write _ _ hne, FileStream.fwrite, length_patch 0 _ _ hne, h.length_eq,
        h.pos_eq]
  · rw [cell_flush_write, FileStream.fwrite, image_patch, h.cell_eq, h.pos_eq]
  · rw [pos_write, FileStream.fwrite, h.pos_eq]

theorem showsFile_openFilesystem (keep : ℕ → Bool) (existing : Option (List UInt8)) :
    ShowsFile (openFilesystem keep existing) (getFilesystemFile existing) := by
  cases existing with
  | some contents => exact showsFile_opened contents
  | none => exact (showsFile_opened []).write keep _

end ShowsFile

structure Shows (m : Process) (w : World) : Prop where
  file : ShowsFile m.fp w.1.fp
  heap_eq : m.heap = w.1.heap
  stats_eq : m.stats = w.1.stats
  conn_eq : m.conn = w.2

/-- What is only watched takes no part in it. -/
theorem Shows.of_eq {m m' : Process} {w : World} (h : Shows m w) (hfp : m'.fp = m.fp)
    (hheap : m'.heap = m.heap) (hstats : m'.stats = m.stats) (hconn : m'.conn = m.conn) :
    Shows m' w := by
  constructor
  · rw [hfp]
    exact h.file
  · rw [hheap, h.heap_eq]
  · rw [hstats, h.stats_eq]
  · rw [hconn, h.conn_eq]

theorem shows_noteReply {m : Process} {w : World} (h : Shows m w) (bytes : List UInt8) :
    Shows (m.noteReply bytes) w := by
  unfold Process.noteReply
  split
  · split <;> exact h.of_eq rfl rfl rfl rfl
  · exact h

theorem shows_noteWrite {m : Process} {w : World} (h : Shows m w) : Shows m.noteWrite w := by
  unfold Process.noteWrite
  split
  · exact h.of_eq rfl rfl rfl rfl
  · exact h

/-- After a seek the buffered stream answers as the plain one. -/
theorem shows_call (e : Call) (m : Process) (w : World) (hs : SeekFirst (e, m)) (h : Shows m w) :
    (stdioHandler e m).1 = (sysHandler e w).1 ∧
      Shows (stdioHandler e m).2 (sysHandler e w).2 := by
  obtain ⟨s, c⟩ := w
  obtain ⟨hfile, hheap, hstats, rfl⟩ := h
  cases e with
  | enter f => exact ⟨rfl, hfile, hheap, hstats, rfl⟩
  | read n => exact ⟨rfl, hfile, hheap, hstats, rfl⟩
  | write bytes =>
    have hsent : Shows (m.withConn (m.conn.reply bytes)) (s, m.conn.reply bytes) :=
      ⟨hfile, hheap, hstats, rfl⟩
    exact ⟨rfl, shows_noteReply hsent bytes⟩
  | alloc size =>
    refine ⟨congrFun hheap 0, hfile, ?_, hstats, rfl⟩
    funext k
    exact congrFun hheap (k + 1)
  | fseek offset => exact ⟨rfl, hfile.seek offset, hheap, hstats, rfl⟩
  | fread size =>
    exact ⟨hfile.readCells_eq hs size, hfile.read hs size, hheap, hstats, rfl⟩
  | fwrite bytes =>
    exact ⟨rfl, shows_noteWrite ⟨hfile.write (m.keeps 0) bytes, hheap, hstats, rfl⟩⟩
  | sync => exact ⟨rfl, hfile, hheap, hstats, rfl⟩
  | countRequest idx => exact ⟨rfl, hfile, hheap, hstats, rfl⟩
  | threadStatistics => exact ⟨hstats, hfile, hheap, hstats, rfl⟩

/-- No client can tell what the stream keeps back: the replies are those of the plain stream,
and a flush leaves its file. -/
theorem shows_serve (existing : Option (List UInt8)) (keeps : ℕ → ℕ → Bool) (heap : ℕ → Mem)
    (stats : Mem) (c : Conn) (frames : List (List UInt8)) :
    Shows (run stdioHandler (serve frames) (started existing keeps heap stats c)).2
      (after frames (⟨getFilesystemFile existing, heap, stats⟩, c)) := by
  have hstart : Shows (started existing keeps heap stats c)
      (⟨getFilesystemFile existing, heap, stats⟩, c) :=
    ⟨showsFile_openFilesystem (keeps 0) existing, rfl, rfl, rfl⟩
  exact (run_simulates stdioHandler shows_call (serve frames) (seeks_serve frames _) hstart).2

/-! ### A stream that keeps nothing back -/

/-- No `fwrite` keeps any byte, and none has. -/
def Unbuffered (m : Process) : Prop := m.keeps = (fun _ _ => false) ∧ m.fp.Clean

theorem unbuffered_call (e : Call) (m : Process) (h : Unbuffered m) :
    Unbuffered (stdioHandler e m).2 := by
  rcases h with ⟨hkeeps, hclean⟩
  cases e with
  | write bytes =>
    simp only [stdioHandler, Process.reply, Process.noteReply]
    split
    · split <;> exact ⟨hkeeps, hclean⟩
    · exact ⟨hkeeps, hclean⟩
  | fseek offset => exact ⟨hkeeps, clean_seek _ _⟩
  | fwrite bytes =>
    have hclean' : (m.fp.write (m.keeps 0) bytes).Clean := by
      rw [hkeeps]
      exact clean_write hclean bytes
    simp only [stdioHandler, Process.fwrite, Process.noteWrite]
    split <;> exact ⟨by rw [hkeeps], hclean'⟩
  | _ => exact ⟨hkeeps, hclean⟩

theorem clean_openFilesystem (existing : Option (List UInt8)) :
    (openFilesystem (fun _ => false) existing).Clean := by
  cases existing with
  | some contents => exact clean_opened 0 contents
  | none =>
    rw [openFilesystem]
    exact clean_write (clean_opened 0 []) _

theorem settled_of_clean {m : Process} (h : m.fp.Clean) : Settled m := by
  intro w _ _ a b hk
  rw [h.kept_eq a] at hk
  cases hk

theorem settled_unbuffered :
    ∀ m ∈ killPoints frames (started existing (fun _ _ => false) heap stats c), Settled m := by
  have hstart : Unbuffered (started existing (fun _ _ => false) heap stats c) :=
    ⟨rfl, clean_openFilesystem existing⟩
  have hall : ∀ m ∈ killPoints frames (started existing (fun _ _ => false) heap stats c),
      Unbuffered m :=
    killPoints_invariant hstart (fun e m _ => unbuffered_call e m) fun m hm =>
      ⟨hm.1, clean_flush _⟩
  intro m hm
  exact settled_of_clean (hall m hm).2

/-! ### Kills -/

theorem durable_iff_of_buffered {m : Process} (h : Buffered m) : Durable m ↔ Settled m := by
  constructor
  · intro hd w hw hans a b hk
    obtain ⟨ws, hws⟩ := List.head?_eq_some_iff.mp hw
    exact hd [] w ws hws hans a b (h.kept w ws hws a b hk) (by simp)
  · intro hset newer w older hws hans a b hb hnewer
    have hview := h.shown a b (lastWritten_eq_some.mpr ⟨newer, w, older, hws, hb, hnewer⟩)
    rcases view_eq_some.mp hview with hk | ⟨-, hstored⟩
    · -- The buffer holds bytes of the latest WRITE only, so this is that WRITE.
      cases newer with
      | nil => exact hset w (by simp [hws]) hans a b hk
      | cons v vs =>
        have hv := h.kept v _ hws a b hk
        rw [hnewer v List.mem_cons_self] at hv
        cases hv
    · exact hstored

/-- A kill keeps the answered WRITEs exactly when it finds the server settled. -/
theorem kill_keeps_writes_iff :
    ∀ m ∈ killPoints frames (started existing keeps heap stats c), Durable m ↔ Settled m :=
  fun m hm => durable_iff_of_buffered (buffered_killPoints m hm)

/-- A full filesystem of zeros, and one byte to be written at its start. -/
def oneWrite (keep : Bool) : Process :=
  started (some (List.replicate capacity 0)) (fun _ _ => keep) (fun _ _ => 0) (fun _ => 0)
    ⟨[], fun _ => 0, [], fun _ => 0⟩

def oneFrame : List (List UInt8) := [(Request.write 0 [1]).frame]

def answeredWrite (keep : Bool) : Process := (run stdioHandler (serve oneFrame) (oneWrite keep)).2

theorem answeredWrite_mem (keep : Bool) :
    answeredWrite keep ∈ killPoints oneFrame (oneWrite keep) := by
  simp [killPoints, answeredWrite]

theorem serve_oneFrame : serve oneFrame = writeCalls 0 [1] := by
  have hin : Inside capacity (.write 0 [1]) := ⟨by decide, by decide⟩
  exact serve_write hin

theorem run_oneWrite (keep : Bool) :
    (answeredWrite keep).writes = [⟨0, [1], true⟩] ∧
      (answeredWrite keep).fp =
        ((Stream.opened 0 (List.replicate capacity 0)).seek 0).write (fun _ => keep) [1] := by
  rw [answeredWrite, serve_oneFrame]
  exact ⟨rfl, rfl⟩

/-- The byte has been passed on, and stays. -/
theorem kill_keeps_unbuffered_write :
    answeredWrite false ∈ killPoints oneFrame (oneWrite false) ∧
      (answeredWrite false).writes = [⟨0, [1], true⟩] ∧ Durable (answeredWrite false) := by
  have hmem := answeredWrite_mem false
  have hsettled : Settled (answeredWrite false) := settled_unbuffered _ hmem
  exact ⟨hmem, (run_oneWrite false).1, (kill_keeps_writes_iff _ hmem).mpr hsettled⟩

/-- The WRITE has been answered, and its byte goes with the process. -/
theorem kill_loses_kept_write :
    answeredWrite true ∈ killPoints oneFrame (oneWrite true) ∧
      (answeredWrite true).conn.output = [[sawaMsgOk]] ∧ ¬ Durable (answeredWrite true) := by
  rcases run_oneWrite true with ⟨hwrites, hfp⟩
  refine ⟨answeredWrite_mem true, ?_, ?_⟩
  · rw [answeredWrite, serve_oneFrame]
    rfl
  · intro hdurable
    have hstored := hdurable [] _ [] hwrites rfl 0 1 (by decide) (by simp)
    rcases stored_eq_some.mp hstored with ⟨-, hcell⟩
    rw [hfp] at hcell
    simp [Stream.write, Stream.put, Stream.seek, Stream.flush, Stream.opened, image] at hcell

end SawaDurability
