import SaWa.SawaDurability
import SaWa.SawaServerFlatDisk
import SaWa.ThreadPoolShutdown
import Mathlib.Data.List.Induction

/-! The disk over several lives of the server. Each opens the file that the one before has left, and
ends in a kill or a stop. A stop deletes the thread pool before it closes the file, and where the
signals of `~ThreadPool` end the process the buffer is lost as in a kill. What a life leaves is sure
behind a READ, whose `fseek` has emptied the buffer. -/
namespace SawaRestarts

open EffectProgram BufferedFile RangeStore SawaProtocol SawaServer SawaServerRun SawaServerFlatDisk
open SawaSharedStream SawaDurability
open ThreadPoolShutdown (Alarm destroy destroyLoop)

/-- One life of the server: the requests it serves, one at a time, and what its `fwrite` and its
`new` find. `closes` says that it ends in the `fclose` of a stop, so `~ThreadPool` has come to its
end before. -/
structure Life where
  requests : List Request
  keeps : ℕ → ℕ → Bool
  heap : ℕ → Mem
  stats : Mem
  conn : Conn
  pool : ThreadPool.Pool
  alarm : Alarm
  closes : Bool
  served_by : requests ≠ [] → pool.allThreads ≠ none
  past_pool : closes = true →
    ∃ fuel dropped, destroy alarm fuel pool = some dropped ∧ dropped.killed = false

/-- The bytes of the file under a stream. -/
def contentsOf (fp : Stream UInt8) : List UInt8 := load fp.cell 0 fp.length

/-- The server when it has served its requests, on the file that it finds. -/
def Life.served (l : Life) (existing : Option (List UInt8)) : Process :=
  (run stdioHandler (serve (frames l.requests))
    (started existing l.keeps l.heap l.stats l.conn)).2

/-- The file that is left. -/
def Life.leaves (l : Life) (existing : Option (List UInt8)) : List UInt8 :=
  if l.closes then contentsOf (fclose (l.served existing)).fp else contentsOf (l.served existing).fp

/-- The file after several lives; there is none at first. -/
def fileAfter (ls : List Life) : Option (List UInt8) :=
  ls.foldl (fun existing l => some (l.leaves existing)) none

def history (ls : List Life) : List Request := ls.flatMap Life.requests

/-- The replies that the disk prescribes, with the history given newest first. -/
def prescribedAll (history : List Request) : List Request → List (List UInt8)
  | [] => []
  | r :: rs => prescribed history r :: prescribedAll (r :: history) rs

section Replies
variable {rs : List Request} {w : World} {d : FlatDisk capacity}

theorem output_after (before : List Request) (hr : ∀ r ∈ rs, Fits r)
    (hs : Simulates w.1.fp.contents (diskAfter before)) :
    (after (frames rs) w).2.output = w.2.output ++ prescribedAll before.reverse rs := by
  induction rs generalizing before w with
  | nil => exact (List.append_nil _).symm
  | cons r rs ih =>
    obtain ⟨hfit, hrest⟩ := List.forall_mem_cons.mp hr
    have hsplit : after (frames (r :: rs)) w = after (frames rs) (after [r.frame] w) := by
      rw [frames, List.map_cons, ← List.singleton_append, after_append]
      rfl
    have hnext : Simulates (after [r.frame] w).1.fp.contents (diskAfter (before ++ [r])) := by
      rw [contents_after_frame hfit, diskAfter, FlatDisk.run_append]
      exact simulates_next hfit hs
    have hans : answer r w = prescribed before.reverse r := by
      rw [← encodeReply_diskAfter]
      exact simulates_reply hfit hs
    rw [hsplit, ih (before ++ [r]) hrest hnext, output_after_frame hfit, hans, prescribedAll,
      List.append_assoc, List.reverse_concat]
    rfl

end Replies

section Lives
variable {l : Life} {existing : Option (List UInt8)} {before : List Request}

/-- A life that has served a request reaches `fclose` only where `SIGALRM` is ignored. -/
theorem Life.ignored_of_closes (hne : l.requests ≠ []) (hcloses : l.closes = true) :
    l.alarm = .ignored := by
  obtain ⟨fuel, dropped, hdestroy, hkilled⟩ := l.past_pool hcloses
  cases halarm : l.alarm with
  | ignored => rfl
  | default =>
    obtain ⟨a, ha⟩ := Option.ne_none_iff_exists'.mp (l.served_by hne)
    rw [halarm] at hdestroy
    cases fuel with
    | zero => cases hdestroy
    | succ fuel =>
      simp only [destroy, destroyLoop, ha, if_true, Option.some.injEq] at hdestroy
      rw [← hdestroy] at hkilled
      cases hkilled

/-- How a life may end: in `fclose`, or behind a READ that was carried out. -/
def Graceful (l : Life) : Prop :=
  l.closes = false → ∃ rs offset size, l.requests = rs ++ [.read offset size] ∧ Accepted offset size

theorem clean_receive_read {offset size : UInt32} (h : Accepted offset size) (m : Process) :
    (run stdioHandler (receive (Request.read offset size).frame) m).2.fp.Clean := by
  have hframe : (Request.read offset size).frame.length < 2 ^ 32 := by simp [Request.frame]
  rw [receive, run_bind, processRequest_frame _ hframe]
  simp only [run, requestProgram]
  rw [run_bind, readFile_accepted h]
  rfl

theorem run_serve_append (fs : List (List UInt8)) (f : List UInt8) (m : Process) :
    (run stdioHandler (serve (fs ++ [f])) m).2 =
      (run stdioHandler (receive f) (run stdioHandler (serve fs) m).2).2 := by
  induction fs generalizing m with
  | nil =>
    have hone : serve [f] = receive f >>= fun _ => serve [] := rfl
    rw [List.nil_append, hone, run_bind]
    rfl
  | cons g fs ih => rw [List.cons_append, serve, run_bind, ih, serve, run_bind]

theorem Graceful.clean (h : Graceful l) (hopen : l.closes = false) :
    (l.served existing).fp.Clean := by
  obtain ⟨rs, offset, size, hrs, haccepted⟩ := h hopen
  rw [Life.served, hrs, frames, List.map_append, List.map_singleton, run_serve_append]
  exact clean_receive_read haccepted _

/-- The file that a server opens is the disk. -/
def Opens (existing : Option (List UInt8)) (d : FlatDisk capacity) : Prop :=
  Simulates (getFilesystemFile existing).contents d

theorem contentsOf_flush {fp : Stream UInt8} {f : FileStream} (h : ShowsFile fp f) :
    contentsOf fp.flush = f.contents := by
  rw [contentsOf, h.length_eq, h.cell_eq, load_image]

theorem contentsOf_clean {fp : Stream UInt8} (h : fp.Clean) :
    contentsOf fp.flush = contentsOf fp := by
  rw [contentsOf, contentsOf, h.length_flush, h.cell_flush]

/-- What a life leaves is the file of a stream without a buffer. -/
theorem leaves_eq (hend : Graceful l) : l.leaves existing = (after (frames l.requests)
    (⟨getFilesystemFile existing, l.heap, l.stats⟩, l.conn)).1.fp.contents := by
  have hshows := shows_serve existing l.keeps l.heap l.stats l.conn (frames l.requests)
  have hflush := contentsOf_flush hshows.file
  rw [Life.leaves]
  cases hcloses : l.closes with
  | true => exact hflush
  | false =>
    rw [if_neg Bool.false_ne_true, ← contentsOf_clean (hend.clean hcloses)]
    exact hflush

/-- `fwrite` goes on to keep all its bytes. -/
def KeepsAll (m : Process) : Prop := ∀ k i, m.keeps k i = true

theorem keepsAll_call (e : Call) (m : Process) (h : KeepsAll m) :
    KeepsAll (stdioHandler e m).2 := by
  cases e with
  | fwrite bytes =>
    simp only [stdioHandler, Process.fwrite, Process.noteWrite]
    split <;> exact fun k i => h (k + 1) i
  | write bytes =>
    simp only [stdioHandler, Process.reply, Process.noteReply]
    split
    · split <;> exact h
    · exact h
  | _ => exact h

/-- The file under the stream when a WRITE has been answered whose bytes are all kept. -/
theorem contents_receive_write {offset : UInt32} {payload : List UInt8}
    (hp : (Request.write offset payload).frame.length < 2 ^ 32)
    (h : Accepted offset (UInt32.ofNat payload.length)) {m : Process} (hkeeps : KeepsAll m) :
    contentsOf (run stdioHandler (receive (Request.write offset payload).frame) m).2.fp =
      contentsOf m.fp.flush := by
  have hlen : payload.length < 2 ^ 32 := by
    simp only [Request.frame, List.length_append, List.length_cons] at hp
    omega
  have hkept : m.keeps 0 = fun _ => true := funext (hkeeps 0)
  have hfp : (run stdioHandler (receive (Request.write offset payload).frame) m).2.fp =
      (m.fp.seek offset.toNat).write (m.keeps 0) payload := by
    rw [receive, run_bind, processRequest_frame _ hp]
    simp only [run, requestProgram]
    rw [run_bind, writeFile_accepted h, payload_at _ _ hlen]
    rfl
  rw [hfp, hkept, contentsOf, length_write_kept, cell_write_kept]
  rfl

/-- A life that ends behind a WRITE, killed or stopped, may leave a file without it. -/
theorem write_lost {rs : List Request} {offset : UInt32} {payload : List UInt8}
    (hl : l.requests = rs ++ [.write offset payload])
    (hp : (Request.write offset payload).frame.length < 2 ^ 32)
    (hacc : Accepted offset (UInt32.ofNat payload.length)) (hkeeps : ∀ k i, l.keeps k i = true)
    (hopen : l.closes = false) : l.leaves existing =
      (after (frames rs) (⟨getFilesystemFile existing, l.heap, l.stats⟩, l.conn)).1.fp.contents := by
  have hshows := shows_serve existing l.keeps l.heap l.stats l.conn (frames rs)
  have hstart : KeepsAll (started existing l.keeps l.heap l.stats l.conn) :=
    fun k i => hkeeps (k + 1) i
  have hall := (calls_preserve stdioHandler (fun e m _ h => keepsAll_call e m h)
    (serve (frames rs)) (seeks_serve (frames rs) _) hstart).2
  have hframes : frames l.requests = frames rs ++ [(Request.write offset payload).frame] := by
    rw [hl, frames, List.map_append]
    rfl
  rw [Life.leaves, hopen, if_neg Bool.false_ne_true, Life.served, hframes, run_serve_append,
    contents_receive_write hp hacc hall]
  exact contentsOf_flush hshows.file

theorem opens_leaves (hr : ∀ r ∈ l.requests, Fits r) (hend : Graceful l)
    (h : Opens existing (diskAfter before)) :
    Opens (some (l.leaves existing)) (diskAfter (before ++ l.requests)) := by
  rw [Opens, getFilesystemFile, leaves_eq hend, diskAfter, FlatDisk.run_append]
  exact simulates_run hr h

theorem output_served (hr : ∀ r ∈ l.requests, Fits r) (h : Opens existing (diskAfter before)) :
    (l.served existing).conn.output =
      l.conn.output ++ prescribedAll before.reverse l.requests := by
  have hshows := shows_serve existing l.keeps l.heap l.stats l.conn (frames l.requests)
  have hstart : Simulates ((⟨getFilesystemFile existing, l.heap, l.stats⟩, l.conn) :
      World).1.fp.contents (diskAfter before) := h
  rw [Life.served, hshows.conn_eq, output_after before hr hstart]

end Lives

section Restarts
variable {ls : List Life}

theorem fileAfter_append (ls : List Life) (l : Life) :
    fileAfter (ls ++ [l]) = some (l.leaves (fileAfter ls)) := by
  rw [fileAfter, List.foldl_append]
  rfl

theorem opens_fileAfter (hr : ∀ l ∈ ls, ∀ r ∈ l.requests, Fits r) (hend : ∀ l ∈ ls, Graceful l) :
    Opens (fileAfter ls) (diskAfter (history ls)) := by
  induction ls using List.reverseRecOn with
  | nil => exact simulates_new
  | append_singleton ls l ih =>
    have hbefore := ih (fun k hk => hr k (List.mem_append_left _ hk))
      fun k hk => hend k (List.mem_append_left _ hk)
    have hmem : l ∈ ls ++ [l] := List.mem_append_right _ List.mem_cons_self
    rw [fileAfter_append, history, List.flatMap_append, List.flatMap_singleton]
    exact opens_leaves (hr l hmem) (hend l hmem) hbefore

/-- Over any number of lives every request is answered by what the requests of all lives before it
and the earlier ones of its own have written, and the file that is left is that disk. -/
theorem disk_survives_restarts (hr : ∀ l ∈ ls, ∀ r ∈ l.requests, Fits r)
    (hend : ∀ l ∈ ls, Graceful l) :
    (∀ before l later, ls = before ++ l :: later →
      (l.served (fileAfter before)).conn.output =
        l.conn.output ++ prescribedAll (history before).reverse l.requests) ∧
      (ls ≠ [] →
        fileAfter ls = some (load (lastWritten capacity (history ls).reverse) 0 capacity)) := by
  constructor
  · rintro before l later rfl
    have hopens : Opens (fileAfter before) (diskAfter (history before)) :=
      opens_fileAfter (fun k hk => hr k (List.mem_append_left _ hk))
        fun k hk => hend k (List.mem_append_left _ hk)
    exact output_served (hr l (List.mem_append_right _ List.mem_cons_self)) hopens
  · intro hne
    have hopens := opens_fileAfter hr hend
    obtain ⟨before, l, rfl⟩ := (List.eq_nil_or_concat ls).resolve_left hne
    rw [List.concat_eq_append] at hopens ⊢
    have hfile := fileAfter_append before l
    rw [Opens, hfile] at hopens
    have hlen : (l.leaves (fileAfter before)).length = capacity := hopens.length_eq
    have himg : image 0 (l.leaves (fileAfter before)) = _ := hopens.image_eq
    rw [hfile, ← cells_diskAfter, ← himg, ← hlen, load_image]

end Restarts

/-- A pool of one thread. -/
def onePool : ThreadPool.Pool := ⟨fun _ => ⟨0, 0, 0, fun _ => 0, none, none⟩, none, some 0, 1⟩

/-- A life that ends before `fclose`, killed or stopped. -/
def life (requests : List Request) : Life where
  requests := requests
  keeps := fun _ _ => true
  heap := fun _ _ => 0
  stats := fun _ => 0
  conn := ⟨[], fun _ => 0, [], fun _ => 0⟩
  pool := onePool
  alarm := .default
  closes := false
  served_by := fun _ => by decide
  past_pool := nofun

/-- A byte is written in each of two lives, both of them end behind a READ, and both bytes are read
after them. -/
theorem two_bytes_survive :
    ((life [.read 0 2]).served
      (fileAfter [life [.write 0 [1], .read 9 0], life [.write 1 [2], .read 9 0]])).conn.output =
        [[1, 2]] := by
  have hfits : ∀ l ∈ [life [.write 0 [1], .read 9 0], life [.write 1 [2], .read 9 0],
      life [.read 0 2]], ∀ r ∈ l.requests, Fits r := by
    intro l hl r hr
    simp only [List.mem_cons, List.not_mem_nil, or_false] at hl
    rcases hl with rfl | rfl | rfl <;>
      simp only [life, List.mem_cons, List.not_mem_nil, or_false] at hr
    · rcases hr with rfl | rfl <;> exact ⟨by decide, by decide⟩
    · rcases hr with rfl | rfl <;> exact ⟨by decide, by decide⟩
    · exact hr ▸ ⟨by decide, by decide⟩
  have hend : ∀ l ∈ [life [.write 0 [1], .read 9 0], life [.write 1 [2], .read 9 0],
      life [.read 0 2]], Graceful l := by
    intro l hl
    simp only [List.mem_cons, List.not_mem_nil, or_false] at hl
    rcases hl with rfl | rfl | rfl
    · exact fun _ => ⟨[.write 0 [1]], 9, 0, rfl, by decide⟩
    · exact fun _ => ⟨[.write 1 [2]], 9, 0, rfl, by decide⟩
    · exact fun _ => ⟨[], 0, 2, rfl, by decide⟩
  have hserved := (disk_survives_restarts hfits hend).1 [_, _] _ [] rfl
  rw [hserved]
  decide

end SawaRestarts
