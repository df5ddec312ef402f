import SaWa.PairedPrograms
import SaWa.SawaClientReads
import SaWa.SawaClientTest
import SaWa.SawaServerThread

/-! The self-test of the client run against the server, by any number of threads at a time and call
by call. Every thread writes the same bytes to a page, so what it reads back is right whatever the
others have done in between, as long as every transfer runs where its own thread has sought. -/
namespace SawaSelfTest

open EffectProgram RangeStore LittleEndian SawaProtocol SawaServer SawaServerRun SawaServerBounds
  SawaClientTest InterleavedPrograms PairedPrograms SawaServerThread
open SawaSharedStream (Inside)
open SawaClientWrites (sendWriteCmd)
open SawaClientReads (readCommand sendReadCmd Outcome)

/-! ### The two sides -/

/-- The calls of a client besides its output: a `write` to its socket, and a `read` of at most so
many bytes. -/
inductive ClientCall where
  | write (bytes : List UInt8)
  | read (size : ℕ)
  | print (m : Message)
  deriving DecidableEq, Repr

abbrev ClientAnswer : ClientCall → Type
  | .write _ | .print _ => Unit
  | .read _ => List UInt8

/-- A test thread with the server thread of its connection. One of them waits for the other. -/
abbrev PairM := Prog (Call ⊕ ClientCall) (Sum.elim Answer ClientAnswer)

def client (e : ClientCall) : PairM (ClientAnswer e) := .call (.inr e) .ret

/-- What the client has printed is kept beside its connection. A `read` brings what it asks for, or
all that the server has sent. -/
def clientHandler : Handler ClientCall ClientAnswer (Shared × Worker × List Message)
  | .write bytes, (s, w, l) =>
    ((), s, w.withConn { w.conn with input := w.conn.input ++ bytes }, l)
  | .read size, (s, w, l) =>
    (w.conn.output.flatten.take size, s,
      w.withConn { w.conn with output := [w.conn.output.flatten.drop size] }, l)
  | .print m, (s, w, l) => ((), s, w, l ++ [m])

abbrev pairHandler := paired workerHandler clientHandler

/-- The `int` a `char` is returned as. -/
def signedChar (b : UInt8) : ℤ := b.toInt8.toInt

/-- A command is sent, the server goes through one round of `readData`, and its reply is read. -/
def exchange (sent : List UInt8) (size : ℕ) : PairM (List UInt8) := do
  client (.write sent)
  let _ ← first (readDataRound ())
  client (.read size)

/-- The commands of a test thread. `block` and `bufferIn` are what new arrays hold. -/
def command (block bufferIn : Mem) : (e : TestCall) → PairM (TestAnswer e)
  | .sendInfo => do
    let _ ← exchange SawaDriver.infoMessage 4
    return ()
  | .sendWriteCmd payload offset size => do
    let response ← exchange
      (sendWriteCmd block (store block 0 payload) (UInt32.ofNat offset) size).sent 1
    -- `response` is 0xFF when no byte comes
    return signedChar (response.headD 0xFF)
  | .sendReadCmd offset size => do
    let response ← exchange
      (readCommand block (UInt32.ofNat offset) (UInt32.ofNat size)).sent size
    match sendReadCmd bufferIn block (UInt32.ofNat offset) (UInt32.ofNat size)
        fun _ _ => some response with
    | .returned buffer => return .ok (store bufferIn 0 buffer)
    | .threw n => return .error n
    -- the test asks for one page
    | .badArrayLength => return .error 0
  | .cout m | .cerr m => client (.print m)

/-- `testServer`: the threads at their start, each with a connection of its own. `cut` tells how
much each `read` of the server brings. -/
def tests {ι : Type} (block bufferIn : Mem) (cut : ι → ℕ → ℕ) (threadId : ι → ℕ) (s : Shared) :
    Threads ι (Call ⊕ ClientCall) (Sum.elim Answer ClientAnswer) (Option UInt8) Shared
      (Worker × List Message) where
  shared := s
  here i := (⟨⟨⟨[], cut i, [], fun _ => 0⟩, 0⟩, []⟩, [])
  rest i := expand (command block bufferIn) (threadTest (threadId i))

/-! ### The pages -/

/-- Page `p` as the test writes it. -/
def pattern (p : ℕ) : List UInt8 := load (bufferOut p) 0 4096

def HasPage (p : ℕ) (l : List UInt8) : Prop := slice l (p * 4096) 4096 = pattern p

/-- What every step keeps of the file: its size, and the pages that hold their pattern. -/
def Keeps (l l' : List UInt8) : Prop :=
  l.length = capacity → l'.length = capacity ∧ ∀ p < 256, HasPage p l → HasPage p l'

theorem keeps_refl (l : List UInt8) : Keeps l l := fun hlen => ⟨hlen, fun _ _ h => h⟩

theorem keeps_trans (a b d : List UInt8) (hab : Keeps a b) (hbd : Keeps b d) : Keeps a d := by
  intro hlen
  obtain ⟨hb, hpages⟩ := hab hlen
  obtain ⟨hd, hpages'⟩ := hbd hb
  exact ⟨hd, fun p hp h => hpages' p hp (hpages p hp h)⟩

/-- The pages below `i` hold their pattern. -/
def Tested (i : ℕ) (l : List UInt8) : Prop :=
  l.length = capacity ∧ ∀ p < i, p < 256 → HasPage p l

theorem Tested.keeps {i : ℕ} {l l' : List UInt8} (h : Tested i l) (hk : Keeps l l') :
    Tested i l' := by
  obtain ⟨hlen, hpages⟩ := h
  obtain ⟨hlen', hkeep⟩ := hk hlen
  exact ⟨hlen', fun p hp h256 => hkeep p h256 (hpages p hp h256)⟩

section Pages
variable {l : List UInt8} {p i : ℕ}

theorem length_pattern (p : ℕ) : (pattern p).length = 4096 := length_load _ _ _

theorem toNat_offset (hp : p < 256) : (UInt32.ofNat (p * 4096)).toNat = p * 4096 :=
  toNat_ofNat (by omega)

theorem inside_write (hp : p < 256) :
    Inside capacity (.write (UInt32.ofNat (p * 4096)) (pattern p)) := by
  have hcap := capacity_eq
  have hend : p * 4096 + 4096 ≤ capacity := by omega
  constructor <;>
    simpa only [InRange, Request.start, Request.count, toNat_offset hp, length_pattern] using hend

theorem inside_read (hp : p < 256) :
    Inside capacity (.read (UInt32.ofNat (p * 4096)) (UInt32.ofNat 4096)) := by
  have hcap := capacity_eq
  have hsize : (UInt32.ofNat 4096).toNat = 4096 := by decide
  have hend : p * 4096 + 4096 ≤ capacity := by omega
  constructor <;>
    simpa only [InRange, Request.start, Request.count, toNat_offset hp, hsize] using hend

theorem contents_write (hp : p < 256) (l : List UInt8) :
    contentsAfter (.write (UInt32.ofNat (p * 4096)) (pattern p)) l =
      patch 0 l (p * 4096) (pattern p) := by
  rw [contentsAfter, if_pos (inside_write hp).accepted_write, toNat_offset hp]

theorem page_end (hlen : l.length = capacity) {q : ℕ} (hq : q < 256) :
    q * 4096 + 4096 ≤ l.length := by
  have hcap := capacity_eq
  omega

theorem hasPage_write (hp : p < 256) (hlen : l.length = capacity) :
    HasPage p (patch 0 l (p * 4096) (pattern p)) := by
  have hin : p * 4096 + (pattern p).length ≤ l.length := by
    rw [length_pattern]
    exact page_end hlen hp
  have hself := slice_patch_self 0 hin
  rwa [length_pattern] at hself

theorem keeps_write (hp : p < 256) : Keeps l (patch 0 l (p * 4096) (pattern p)) := by
  intro hlen
  have hin : p * 4096 + (pattern p).length ≤ l.length := by
    rw [length_pattern]
    exact page_end hlen hp
  refine ⟨by rw [length_patch_within 0 hin, hlen], ?_⟩
  intro q hq hpage
  by_cases hqp : q = p
  · subst hqp
    exact hasPage_write hp hlen
  · have hapart : Apart (p * 4096) (pattern p).length (q * 4096) 4096 := by
      rw [length_pattern]
      unfold Apart
      omega
    rw [HasPage, slice_patch_apart 0 hin (page_end hlen hq) hapart]
    exact hpage

/-- A page more is tested once it has been written. -/
theorem Tested.written (hp : p < 256) (h : Tested p l) :
    Tested (p + 1) (patch 0 l (p * 4096) (pattern p)) := by
  obtain ⟨hlen, hkeep⟩ := keeps_write hp h.1
  refine ⟨hlen, ?_⟩
  intro q hq h256
  rcases Nat.lt_succ_iff_lt_or_eq.mp hq with hlt | rfl
  · exact hkeep q h256 (h.2 q hlt h256)
  · exact hasPage_write hp h.1

/-- The whole file holds the pages. -/
theorem Tested.contents (h : Tested 256 l) :
    l = load (fun a => bufferOut (a / 4096) (a % 4096)) 0 capacity := by
  obtain ⟨hlen, hpages⟩ := h
  have hcap := capacity_eq
  rw [← load_image 0 l, hlen]
  apply load_congr
  intro a _ ha
  have hp : a / 4096 < 256 := by omega
  have hpage := hpages (a / 4096) hp hp
  have hshift := load_shift (image 0 l) (a / 4096 * 4096) 0 4096
  rw [HasPage, slice_eq_load 0 (by omega), pattern, ← Nat.add_zero (a / 4096 * 4096), ← hshift]
    at hpage
  have hcell := load_inj hpage (Nat.zero_le (a % 4096)) (by omega)
  rw [Nat.div_add_mod'] at hcell
  exact hcell

end Pages

/-! ### One command -/

/-- No message has been printed but the last one. -/
def Quiet (threadId : ℕ) (l : List Message) : Prop := l = [] ∨ l = [.endThread threadId]

/-- Neither side has anything left to read, and the server's reads are whole. -/
structure Idle (w : Worker) : Prop where
  input_eq : w.conn.input = []
  output_eq : w.conn.output.flatten = []
  whole : Whole 4101 w.conn

/-- Between two commands: the pages below `i` are tested, and nothing has been printed. -/
structure UpTo (i : ℕ) (s : Shared) (x : Worker × List Message) : Prop where
  tested : Tested i s.fp.contents
  idle : Idle x.1
  nothing : x.2 = []

def KeepsFile (s s' : Shared) : Prop := Keeps s.fp.contents s'.fp.contents

theorem keepsFile_refl (s : Shared) : KeepsFile s s := keeps_refl _

abbrev SoundPair {α : Type} (threadId : ℕ)
    (Q : α → Shared → Worker × List Message → Prop) (p : PairM α) (s : Shared)
    (x : Worker × List Message) : Prop :=
  Sound pairHandler KeepsFile (onFirst InPlace) (fun x => Quiet threadId x.2) Q p s x

section Commands
variable {block bufferIn : Mem} {s : Shared} {w : Worker} {x : Worker × List Message}
  {i j threadId : ℕ} {r : Request}

theorem UpTo.keeps (h : UpTo i s x) {s' : Shared} (hk : KeepsFile s s') : UpTo i s' x :=
  ⟨h.tested.keeps hk, h.idle, h.nothing⟩

/-- The server's thread has the request before it, or has served it in a file that was tested so
far. -/
def Serving (i j : ℕ) (seen : List (List UInt8)) (s : Shared) (w : Worker) : Prop :=
  (w.seen = seen ∧ Tested i s.fp.contents) ∨
    ∃ l, w.seen = seen ++ [l] ∧ Tested i l ∧ Tested j s.fp.contents

theorem Serving.capacity {seen : List (List UInt8)} (h : Serving i j seen s w) :
    s.fp.contents.length = capacity := by
  rcases h with ⟨-, h⟩ | ⟨l, -, -, h⟩
  · exact h.1
  · exact h.1

theorem Serving.keeps {seen : List (List UInt8)} {s' : Shared} (h : Serving i j seen s w)
    (hk : KeepsFile s s') : Serving i j seen s' w := by
  rcases h with ⟨hs, h⟩ | ⟨l, hs, hl, h⟩
  · exact .inl ⟨hs, h.keeps hk⟩
  · exact .inr ⟨l, hs, hl, h.keeps hk⟩

theorem Serving.served {seen : List (List UInt8)} {l : List UInt8} (h : Serving i j seen s w)
    (hseen : w.seen = seen ++ [l]) : Tested i l ∧ Tested j s.fp.contents := by
  rcases h with ⟨hs, -⟩ | ⟨l', hs, hl, hj⟩
  · have hsame : seen = seen ++ [l] := hs.symm.trans hseen
    exact absurd hsame (by simp)
  · have hsame : [l'] = [l] := List.append_cancel_left (hs.symm.trans hseen)
    rw [List.singleton_inj.mp hsame] at hl
    exact ⟨hl, hj⟩

theorem Serving.step {seen out : List (List UInt8)} {s' : Shared} {w' : Worker}
    (hserve : ∀ l, Tested i l → Keeps l (contentsAfter r l) ∧ Tested j (contentsAfter r l))
    (h : Serving i j seen s w) (ht : ThreadStep r seen out (s, w) (s', w')) :
    KeepsFile s s' ∧ Serving i j seen s' w' := by
  obtain ⟨hstage, ⟨hseen, hfile⟩ | ⟨hseen, hfile⟩⟩ := ht
  · have hk : KeepsFile s s' := by
      rw [KeepsFile, hfile]
      exact keeps_refl _
    refine ⟨hk, ?_⟩
    rcases h with ⟨hs, hi⟩ | ⟨l, hs, hl, hj⟩
    · exact .inl ⟨hseen.trans hs, hi.keeps hk⟩
    · exact .inr ⟨l, hseen.trans hs, hl, hj.keeps hk⟩
  · rcases h with ⟨hs, hi⟩ | ⟨l, hs, hl, hj⟩
    · obtain ⟨hk, hj⟩ := hserve _ hi
      rw [KeepsFile, hfile]
      exact ⟨hk, .inr ⟨_, by rw [hseen, hs], hi, hfile ▸ hj⟩⟩
    · have hnone := hstage.once (hseen.trans (congrArg (· ++ _) hs))
      cases hnone

theorem exchange_eq (sent : List UInt8) (size : ℕ) : exchange sent size =
    .call (.inr (.write sent)) fun _ => first (readDataRound ()) >>= fun _ =>
      client (.read size) := rfl

/-- A request of the thread is answered with the file as it was when it was served. -/
theorem sound_exchange (hin : Inside capacity r) (hframe : r.frame.length ≤ 4101) {size : ℕ}
    (hreply : ∀ l, l.length = capacity → (replyFrom r l).length ≤ size)
    (hserve : ∀ l, Tested i l → Keeps l (contentsAfter r l) ∧ Tested j (contentsAfter r l))
    (hx : UpTo i s x) :
    SoundPair threadId (fun bytes s x => (∃ l, Tested i l ∧ bytes = replyFrom r l) ∧ UpTo j s x)
      (exchange (message r.frame) size) s x := by
  obtain ⟨w, printed⟩ := x
  obtain ⟨htested, ⟨hinput, houtput, hwhole⟩, hnothing⟩ := hx
  have hquiet : Quiet threadId printed := .inl hnothing
  rw [exchange_eq]
  refine sound_call (P := fun x : Worker × List Message => Quiet threadId x.2) hquiet
    fun t ht _ => ⟨keepsFile_refl t, ?_⟩
  have hround := serves_round hin (hframe.trans (by decide))
    (w := w.withConn { w.conn with input := w.conn.input ++ message r.frame })
    (by rw [hinput]; rfl) hwhole (by decide) hframe rfl rfl
  refine sound_bind keepsFile_refl (sound_first (J := Serving i j w.seen)
    (fun _ _ => Serving.capacity) (fun _ _ _ => hquiet) (fun _ _ _ => Serving.keeps)
    (fun _ _ _ _ => Serving.step hserve) hround (.inl ⟨rfl, htested.keeps ht⟩)) ?_
  rintro _ s' ⟨w', printed'⟩ ⟨⟨-, ⟨l, hseen, hout⟩, hinput', hcut⟩, hserving, hprinted⟩
  obtain ⟨hl, hj⟩ := hserving.served hseen
  have hsent : w'.conn.output.flatten = replyFrom r l := by
    rw [hout, List.flatten_append, List.flatten_singleton]
    exact (congrArg (· ++ replyFrom r l) houtput).trans (List.nil_append _)
  have htake : w'.conn.output.flatten.take size = replyFrom r l := by
    rw [hsent, List.take_of_length_le (hreply l hl.1)]
  have hdrop : w'.conn.output.flatten.drop size = [] := by
    rw [hsent, List.drop_of_length_le (hreply l hl.1)]
  have hnothing' : printed' = [] := hprinted.trans hnothing
  refine sound_call (P := fun x : Worker × List Message => Quiet threadId x.2) (.inl hnothing')
    fun t' ht' _ => ⟨keepsFile_refl t', sound_ret (.inl hnothing') fun u hu => ?_⟩
  have hidle : Idle (w'.withConn
      { w'.conn with output := [w'.conn.output.flatten.drop size] }) := by
    refine ⟨hinput', ?_, ?_⟩
    · rw [hdrop]
      rfl
    · intro k
      show 4101 ≤ w'.conn.cut k
      rw [hcut]
      exact hwhole (k + 2)
  exact ⟨⟨l, hl, htake⟩, (hj.keeps ht').keeps hu, hidle, hnothing'⟩

theorem sound_sendInfo (hx : UpTo i s x) :
    SoundPair threadId (fun _ => UpTo i) (command block bufferIn .sendInfo) s x := by
  have hin : Inside capacity .info := ⟨by decide, by decide⟩
  refine sound_bind keepsFile_refl (sound_exchange (r := .info) (i := i) (j := i) hin (by decide)
    (fun _ _ => by rw [replyFrom, length_wordBytes]) (fun l hl => ⟨keeps_refl l, hl⟩) hx) ?_
  rintro _ s' x' ⟨-, hx'⟩
  exact sound_ret (.inl hx'.nothing) fun _ => hx'.keeps

/-- A page goes to its place, and the write is answered with `SAWA_MSG_OK`. -/
theorem sound_sendWriteCmd (hp : i < 256) (hx : UpTo i s x) :
    SoundPair threadId (fun result s x => result = msgOk ∧ UpTo (i + 1) s x)
      (command block bufferIn (.sendWriteCmd (pattern i) (i * 4096) 4096)) s x := by
  have hfill : load (store block 0 (pattern i)) 0 4096 = pattern i := by
    have hself := load_store_self block 0 (pattern i)
    rwa [length_pattern] at hself
  have hsent : (sendWriteCmd block (store block 0 (pattern i)) (UInt32.ofNat (i * 4096))
      4096).sent = message (Request.frame (.write (UInt32.ofNat (i * 4096)) (pattern i))) := by
    rw [sendWriteCmd, hfill, SawaClientWrites.sent_writeCommand,
      SawaClientWrites.page_of_full (length_pattern i)]
  have hframe : (Request.frame (.write (UInt32.ofNat (i * 4096)) (pattern i))).length ≤ 4101 := by
    simp [Request.frame, length_pattern]
  rw [command, hsent]
  refine sound_bind keepsFile_refl (sound_exchange (i := i) (j := i + 1) (inside_write hp) hframe
    (fun _ _ => le_rfl) (fun l hl => ?_) hx) ?_
  · rw [contents_write hp]
    exact ⟨keeps_write hp, hl.written hp⟩
  · rintro _ s' x' ⟨⟨l, -, rfl⟩, hx'⟩
    exact sound_ret (.inl hx'.nothing) fun _ ht => ⟨rfl, hx'.keeps ht⟩

/-- A page that is there is read as it is. -/
theorem sound_sendReadCmd (hp : i < 256) (hx : UpTo (i + 1) s x) :
    SoundPair threadId (fun result s x => result = .ok (store bufferIn 0 (pattern i)) ∧
      UpTo (i + 1) s x) (command block bufferIn (.sendReadCmd (i * 4096) 4096)) s x := by
  have hsize : (UInt32.ofNat 4096).toNat = 4096 := by decide
  have hreply : ∀ l : List UInt8, l.length = capacity → (replyFrom (.read (UInt32.ofNat (i * 4096))
      (UInt32.ofNat 4096)) l).length ≤ 4096 := by
    intro l _
    exact (length_slice_le _ _ _).trans hsize.le
  rw [command, SawaClientReads.sent_readCommand]
  refine sound_bind keepsFile_refl (sound_exchange (i := i + 1) (j := i + 1) (inside_read hp)
    (by simp [Request.frame]) hreply (fun l hl => ⟨keeps_refl l, hl⟩) hx) ?_
  rintro _ s' x' ⟨⟨l, hl, rfl⟩, hx'⟩
  have hpage : replyFrom (.read (UInt32.ofNat (i * 4096)) (UInt32.ofNat 4096)) l = pattern i := by
    rw [replyFrom, toNat_offset hp, hsize]
    exact hl.2 i (Nat.lt_succ_self i) hp
  have hself := load_store_self bufferIn 0 (pattern i)
  rw [length_pattern] at hself
  have hread : sendReadCmd bufferIn block (UInt32.ofNat (i * 4096)) (UInt32.ofNat 4096)
      (fun _ _ => some (pattern i)) = .returned (pattern i) := by
    rw [sendReadCmd, if_neg (by decide), hsize]
    simp only [length_pattern, hself]
    rfl
  simp only [hpage, hread]
  exact sound_ret (.inl hx'.nothing) fun _ ht => ⟨rfl, hx'.keeps ht⟩

end Commands

/-! ### The threads -/

section Threads
variable {block bufferIn : Mem} {s : Shared} {x : Worker × List Message} {i threadId : ℕ}

theorem writePage_eq (i : ℕ) : writePage i =
    .call (.sendWriteCmd (pattern i) (i * 4096) 4096) fun result =>
      if result ≠ msgOk then ask (.cout (.errorCode result i)) else .ret () := rfl

theorem sound_writePage (hi : i < 256) (hx : UpTo i s x) :
    SoundPair threadId (fun _ => UpTo (i + 1))
      (expand (command block bufferIn) (writePage i)) s x := by
  rw [writePage_eq, expand]
  refine sound_bind keepsFile_refl (sound_sendWriteCmd hi hx) ?_
  rintro _ s' x' ⟨rfl, hx'⟩
  rw [if_neg (not_not.mpr rfl)]
  exact sound_ret (.inl hx'.nothing) fun _ => hx'.keeps

theorem checkPage_right (i : ℕ) (bufferIn : Mem) :
    checkPage i (store bufferIn 0 (pattern i)) = .ret () := by
  have hsame : ¬ strncmp 4096 (store bufferIn 0 (pattern i)) (bufferOut i) ≠ 0 := by
    rw [strncmp_bufferOut]
    rintro ⟨j, hj, hne⟩
    have hj' : j < (pattern i).length := by
      rw [length_pattern]
      unfold firstNull at hj
      omega
    apply hne
    rw [store_inside _ 0 _ (Nat.zero_le j) hj']
    exact (getElem_load _ _ _ _ hj').trans (congrArg _ (Nat.zero_add j))
  rw [checkPage, if_neg hsame]
  rfl

theorem sound_readPage (hi : i < 256) (hx : UpTo (i + 1) s x) :
    SoundPair threadId (fun a s x => a = none ∧ UpTo (i + 1) s x)
      (expand (command block bufferIn) (readPage i)) s x := by
  rw [readPage, perform_bind, expand]
  refine sound_bind keepsFile_refl (sound_sendReadCmd hi hx) ?_
  rintro _ s' x' ⟨rfl, hx'⟩
  simp only [checkPage_right, Prog.ret_bind]
  exact sound_ret (.inl hx'.nothing) fun _ ht => ⟨rfl, hx'.keeps ht⟩

theorem sound_testPages {n : ℕ} (hn : i + n = 256) (hx : UpTo i s x) :
    SoundPair threadId (fun a s x => a = none ∧ UpTo 256 s x)
      (expand (command block bufferIn) (testPages n i)) s x := by
  induction n generalizing i s x with
  | zero =>
    obtain rfl : i = 256 := hn
    exact sound_ret (.inl hx.nothing) fun _ ht => ⟨rfl, hx.keeps ht⟩
  | succ n ih =>
    rw [testPages, expand_bind]
    refine sound_bind keepsFile_refl (sound_writePage (by omega) hx) fun _ t c ht => ?_
    rw [expand_bind]
    refine sound_bind keepsFile_refl (sound_readPage (by omega) ht) ?_
    rintro _ t' c' ⟨rfl, ht'⟩
    exact ih (by omega) ht'

/-- What a thread leaves behind: no exception, nothing printed but its end, and every page. -/
def Ended (threadId : ℕ) (a : Option UInt8) (s : Shared) (x : Worker × List Message) : Prop :=
  a = none ∧ x.2 = [.endThread threadId] ∧ Tested 256 s.fp.contents

theorem sound_threadTest (hx : UpTo 0 s x) :
    SoundPair threadId (Ended threadId) (expand (command block bufferIn) (threadTest threadId)) s
      x := by
  rw [threadTest, expand_bind]
  refine sound_bind keepsFile_refl (sound_bind keepsFile_refl (sound_sendInfo hx)
    fun _ _ _ h => sound_ret (.inl h.nothing) fun _ => h.keeps) fun _ t c ht => ?_
  rw [expand_bind]
  refine sound_bind keepsFile_refl (sound_testPages (Nat.zero_add 256) ht) ?_
  rintro _ t' ⟨w, printed⟩ ⟨rfl, htested, -, hnothing⟩
  obtain rfl : printed = [] := hnothing
  refine sound_call (P := fun x : Worker × List Message => Quiet threadId x.2) (.inl rfl)
    fun u hu _ => ⟨keepsFile_refl u, ?_⟩
  exact sound_ret (.inr rfl) fun v hv => ⟨rfl, rfl, (htested.keeps hu).keeps hv⟩

end Threads

/-! ### How long a thread takes -/

theorem within_exchange (sent : List UInt8) (size : ℕ) : Within 12 (exchange sent size) := by
  rw [exchange_eq]
  intro _
  exact within_bind (n := 10) (m := 1) (within_first within_readDataRound) fun _ _ => within_ret 0 _

theorem within_command (block bufferIn : Mem) (e : TestCall) :
    Within 12 (command block bufferIn e) := by
  have hprint : ∀ m, Within 12 (client (.print m)) := fun m _ => within_ret 11 ()
  cases e with
  | sendInfo => exact within_bind (m := 0) (within_exchange _ _) fun _ => within_ret 0 ()
  | sendWriteCmd payload offset size =>
    exact within_bind (m := 0) (within_exchange _ _) fun _ => within_ret 0 _
  | sendReadCmd offset size =>
    refine within_bind (m := 0) (within_exchange _ _) fun response => ?_
    split <;> exact within_ret 0 _
  | cout m => exact hprint m
  | cerr m => exact hprint m

theorem within_writePage (i : ℕ) : Within 2 (writePage i) := by
  rw [writePage_eq]
  intro result
  by_cases hr : result ≠ msgOk
  · simp only [if_pos hr]
    exact within_perform _
  · simp only [if_neg hr]
    exact within_ret 1 ()

theorem within_readPage (i : ℕ) : Within 2 (readPage i) := by
  rw [readPage, perform_bind]
  intro r
  cases r with
  | error code => exact within_ret 1 _
  | ok b =>
    refine within_bind (n := 1) (m := 0) ?_ fun _ => within_ret 0 _
    unfold checkPage
    split_ifs
    · exact within_perform _
    · exact within_ret 1 ()

theorem within_testPages (n i : ℕ) : Within (4 * n) (testPages n i) := by
  induction n generalizing i with
  | zero => exact within_ret _ _
  | succ n ih =>
    rw [testPages, show 4 * (n + 1) = 2 + (2 + 4 * n) by omega]
    refine within_bind (within_writePage i) fun _ => within_bind (within_readPage i) fun a => ?_
    cases a with
    | some code => exact within_ret _ _
    | none => exact ih (i + 1)

theorem within_threadTest (threadId : ℕ) : Within (1 + (4 * 256 + 1)) (threadTest threadId) := by
  refine within_bind (within_perform _) fun _ => within_bind (within_testPages 256 0) fun a => ?_
  cases a with
  | some code => exact within_ret 1 _
  | none => exact within_bind (m := 0) (within_perform _) fun _ => within_ret 0 none

/-- A thread and its server thread make at most this many calls, whatever they are answered. -/
def testCalls : ℕ := 12 * (1 + (4 * 256 + 1))

theorem within_test (block bufferIn : Mem) (threadId : ℕ) :
    Within testCalls (expand (command block bufferIn) (threadTest threadId)) :=
  within_expand (within_command block bufferIn) (within_threadTest threadId)

section Runs
variable {ι : Type} [DecidableEq ι]

/-- The state of thread `i` among the others: it has reported nothing, and once it has returned
every page of the file is the test's. -/
structure Passing {ι : Type} (threadId : ι → ℕ) (i : ι)
    (t : Threads ι (Call ⊕ ClientCall) (Sum.elim Answer ClientAnswer) (Option UInt8) Shared
      (Worker × List Message)) : Prop where
  quiet : Quiet (threadId i) (t.here i).2
  ended : ∀ a, t.rest i = .ret a → a = none ∧ (t.here i).2 = [.endThread (threadId i)] ∧
    t.shared.fp.contents = load (fun a => bufferOut (a / 4096) (a % 4096)) 0 capacity

/-- Whatever the file held, and in whatever order the threads make their calls: as long as every
transfer runs where its thread has sought, no thread ever reports an error, each comes to its end,
and the file is then filled with the test pages. -/
theorem self_tests_pass (block bufferIn : Mem) {cut : ι → ℕ → ℕ} (hcut : ∀ i k, 4101 ≤ cut i k)
    (threadId : ι → ℕ) {s : Shared} (hlen : s.fp.contents.length = capacity) (is : List ι)
    (hplace : (tests block bufferIn cut threadId s).AllMeet pairHandler (onFirst InPlace) is)
    (i : ι) :
    Passing threadId i ((tests block bufferIn cut threadId s).runs pairHandler is) ∧
      (testCalls ≤ is.count i →
        ((tests block bufferIn cut threadId s).runs pairHandler is).rest i = .ret none) := by
  have hstart : AllSound pairHandler KeepsFile (onFirst InPlace) (fun i x => Quiet (threadId i) x.2)
      (fun i => Ended (threadId i)) (tests block bufferIn cut threadId s) := fun i =>
    sound_threadTest ⟨⟨hlen, fun p hp => absurd hp (Nat.not_lt_zero p)⟩, ⟨rfl, rfl, hcut i⟩, rfl⟩
  have hsound := allSound_runs keepsFile_refl (fun _ _ _ => keeps_trans _ _ _) hstart hplace
  have hended : ∀ a, ((tests block bufferIn cut threadId s).runs pairHandler is).rest i = .ret a →
      Ended (threadId i) a _ _ := fun a ha => hsound.returned keepsFile_refl ha
  constructor
  · refine ⟨(hsound i).here, ?_⟩
    intro a ha
    obtain ⟨hnone, hl, htested⟩ := hended a ha
    exact ⟨hnone, hl, htested.contents⟩
  · intro hcount
    obtain ⟨a, ha⟩ := returned_of_within (h := pairHandler)
      (t := tests block bufferIn cut threadId s) (within_test block bufferIn (threadId i)) hcount
    rw [ha, (hended a ha).1]

end Runs

/-! ### Threads that are not disturbed -/

/-- The transfers of the server's thread come after seeks of their own. -/
abbrev PairSeeksFirst {α : Type} (sought : Bool) (p : PairM α) : Prop :=
  Primed (Sum.elim transfers fun _ => false) (fun b => Sum.elim (soughtAfter b) fun _ => b) sought p

section SeeksFirst
variable {α : Type} {sought : Bool}

theorem seeksFirst_client (e : ClientCall) : PairSeeksFirst sought (client e) :=
  primed_call rfl fun _ => primed_ret

theorem seeksFirst_exchange (sent : List UInt8) (size : ℕ) :
    PairSeeksFirst sought (exchange sent size) := by
  rw [exchange_eq]
  exact primed_call rfl fun _ => primed_bind (primed_first seeksFirst_readDataRound) fun _ _ =>
    seeksFirst_client _

theorem seeksFirst_command (block bufferIn : Mem) (e : TestCall) :
    PairSeeksFirst sought (command block bufferIn e) := by
  cases e with
  | sendInfo => exact primed_bind (seeksFirst_exchange _ _) fun _ _ => primed_ret
  | sendWriteCmd => exact primed_bind (seeksFirst_exchange _ _) fun _ _ => primed_ret
  | sendReadCmd =>
    refine primed_bind (seeksFirst_exchange _ _) fun response _ => ?_
    split <;> exact primed_ret
  | cout m => exact seeksFirst_client _
  | cerr m => exact seeksFirst_client _

theorem seeksFirst_expand (block bufferIn : Mem) (p : TestM α) :
    PairSeeksFirst sought (expand (command block bufferIn) p) := by
  induction p generalizing sought with
  | ret a => exact primed_ret
  | call e k ih => exact primed_bind (seeksFirst_command block bufferIn e) fun r _ => ih r

end SeeksFirst

section Alone
variable {ι : Type} {i : ι} {sought : Bool}
  {t : Threads ι (Call ⊕ ClientCall) (Sum.elim Answer ClientAnswer) (Option UInt8) Shared
    (Worker × List Message)}

/-- The thread's next transfer is in place unless another thread gets in between. -/
structure Undisturbed (sought : Bool) (i : ι)
    (t : Threads ι (Call ⊕ ClientCall) (Sum.elim Answer ClientAnswer) (Option UInt8) Shared
      (Worker × List Message)) : Prop where
  seeks : PairSeeksFirst sought (t.rest i)
  at_sought : AtSought sought t.shared (t.here i).1

theorem Undisturbed.meets (h : Undisturbed sought i t) : t.Meets (onFirst InPlace) i := by
  unfold Threads.Meets
  cases hp : t.rest i with
  | ret a => trivial
  | call e k =>
    have hs := h.seeks
    rw [hp] at hs
    cases e with
    | inl e => exact h.at_sought.in_place hs.1
    | inr e => trivial

variable [DecidableEq ι]

theorem Undisturbed.step (h : Undisturbed sought i t) :
    ∃ sought', Undisturbed sought' i (t.step pairHandler i) := by
  unfold Threads.step
  cases hp : t.rest i with
  | ret a => exact ⟨sought, h⟩
  | call e k =>
    obtain ⟨hseeks, hat⟩ := h
    rw [hp] at hseeks
    refine ⟨Sum.elim (soughtAfter sought) (fun _ => sought) e, ?_, ?_⟩
    · dsimp only
      rw [Function.update_self]
      exact hseeks.2 _
    · dsimp only
      rw [Function.update_self]
      cases e with
      | inl e => exact hat.step e
      | inr e => cases e <;> exact hat

/-- A thread that makes its calls one after the other is always in place. -/
theorem Undisturbed.allMeet (h : Undisturbed sought i t) (n : ℕ) :
    t.AllMeet pairHandler (onFirst InPlace) (List.replicate n i) := by
  induction n generalizing t sought with
  | zero => trivial
  | succ n ih =>
    obtain ⟨sought', h'⟩ := h.step
    exact ⟨h.meets, ih h'⟩

end Alone

/-- One thread after the other on a new file. -/
def oneAfterTheOther : List Bool :=
  List.replicate testCalls false ++ List.replicate testCalls true

def twoTests : Threads Bool (Call ⊕ ClientCall) (Sum.elim Answer ClientAnswer) (Option UInt8)
    Shared (Worker × List Message) :=
  tests (fun _ => 0) (fun _ => 0) (fun _ _ => 4101) Bool.toNat newWorld.1

theorem oneAfterTheOther_in_place :
    twoTests.AllMeet pairHandler (onFirst InPlace) oneAfterTheOther := by
  have hstart : ∀ i, PairSeeksFirst false (twoTests.rest i) := fun i => seeksFirst_expand _ _ _
  refine (Threads.allMeet_append _ _ _ _ _).mpr ⟨?_, ?_⟩
  · exact Undisturbed.allMeet ⟨hstart false, atSought_false _ _⟩ _
  · have hother : true ∉ List.replicate testCalls false :=
      fun h => absurd (List.eq_of_mem_replicate h) (by decide)
    have hundisturbed : Undisturbed false true
        (twoTests.runs pairHandler (List.replicate testCalls false)) := by
      refine ⟨?_, atSought_false _ _⟩
      rw [Threads.rest_runs_of_not_mem pairHandler twoTests hother]
      exact hstart true
    exact hundisturbed.allMeet _

theorem two_self_tests_pass :
    Passing Bool.toNat true (twoTests.runs pairHandler oneAfterTheOther) ∧
      (twoTests.runs pairHandler oneAfterTheOther).rest true = .ret none := by
  unfold twoTests
  obtain ⟨hpass, hend⟩ := self_tests_pass (fun _ => 0) (fun _ => 0) (fun _ _ => le_rfl)
    Bool.toNat (s := newWorld.1) length_newFile oneAfterTheOther oneAfterTheOther_in_place true
  refine ⟨hpass, hend ?_⟩
  rw [oneAfterTheOther, List.count_append, List.count_replicate_self]
  exact Nat.le_add_left _ _


end SawaSelfTest
