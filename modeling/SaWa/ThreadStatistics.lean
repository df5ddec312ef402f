import SaWa.ThreadPoolLists
import SaWa.SawaServer

/-! The statistics of the pool: the buffer of `ThreadPool::getThreadStatistics`, what
`AdminInterface::statCommand` sends of it and what `SawaClient::sendStatCmd` makes of that. -/
namespace ThreadStatistics

open RangeStore LittleEndian PointerChain ThreadPool Pool ThreadPoolLists
open SawaServer (infoCol readCol writeCol)

@[ext] structure ThreadStat where
  nbConnections : UInt32
  info : Fin 3 → UInt32
  active : UInt8

/-- Five fields and three bytes of padding. -/
def sizeofThreadStat : ℕ := 20

def ThreadStat.loadFrom (t : ConnectionThread) : ThreadStat :=
  ⟨UInt32.ofNat t.nbConnections, fun i => UInt32.ofNat (t.info i),
    if 0 ≤ t.clientSock then 1 else 0⟩

def ThreadStat.numbers (t : ThreadStat) : List UInt8 :=
  wordBytes t.nbConnections ++ wordBytes (t.info infoCol) ++ wordBytes (t.info readCol) ++
    wordBytes (t.info writeCol)

/-- The bytes that `loadFrom` writes; the padding behind them is left as it is. -/
def ThreadStat.fields (t : ThreadStat) : List UInt8 := t.numbers ++ [t.active]

def ThreadStat.bytes (t : ThreadStat) : List UInt8 := t.fields ++ [0, 0, 0]

/-! ### The server -/

/-- The loop of `serializeThreadStats`; `k` records are still to be filled, the last one first.
`none` when the loop is still running after `fuel` rounds. -/
def serializeLoop (p : Pool) : ℕ → Option Addr → ℕ → (ℕ → UInt8) → Option (ℕ → UInt8)
  | 0, _, _, _ => none
  | _ + 1, none, _, buf => some buf
  | fuel + 1, some a, k, buf =>
    serializeLoop p fuel (p.nextAll a) (k - 1)
      (store buf (4 + sizeofThreadStat * (k - 1)) (ThreadStat.loadFrom (p.heap a)).fields)

def payloadSize (p : Pool) : UInt32 := UInt32.ofNat (p.threadNb * sizeofThreadStat)

def getThreadStatistics (fuel : ℕ) (p : Pool) : Option (ℕ → UInt8) :=
  serializeLoop p fuel p.allThreads p.threadNb (store (fun _ => 0) 0 (wordBytes (payloadSize p)))

/-- What `write` sends of the buffer: as many bytes as its first word says, and nothing when that
is negative as an `int`. -/
def statCommand (fuel : ℕ) (p : Pool) : Option (List UInt8) :=
  (getThreadStatistics fuel p).map fun buf =>
    if (wordAt buf 0).toNat < 2 ^ 31 then load buf 0 (wordAt buf 0).toNat else []

/-! ### The client -/

def statAt (m : ℕ → UInt8) (p : ℕ) : ThreadStat :=
  ⟨wordAt m p, fun i => wordAt m (p + 4 + 4 * i), m (p + 16)⟩

/-- `readFromServer`: the payload size and the new buffer, over what its memory held, when the
server has sent `sent` and closed. -/
def readFromServer (heap : ℕ → UInt8) (sent : List UInt8) : ℕ × (ℕ → UInt8) :=
  if sent.length < 4 then (0, heap)
  else
    let size := (wordOf (sent.take 4)).toNat
    (size, store heap 0 ((sent.drop 4).take size))

def sendStatCmd (heap : ℕ → UInt8) (sent : List UInt8) : List ThreadStat :=
  let r := readFromServer heap sent
  (List.range (r.1 / sizeofThreadStat)).map fun i => statAt r.2 (sizeofThreadStat * i)

/-! ### The round trip -/

/-- The statistics of the threads from number 0 on. -/
def stats (h : List Event) (p : Pool) : List ThreadStat :=
  (createdIn h).reverse.map fun a => ThreadStat.loadFrom (p.heap a)

/-- `sent` is the payload size and one record for each thread, and the client gets just these,
whatever its new buffer held. -/
structure RoundTrip (h : List Event) (p : Pool) (sent : List UInt8) : Prop where
  bytes : sent = wordBytes (payloadSize p) ++ ((stats h p).map ThreadStat.bytes).flatten
  decoded : ∀ heap, sendStatCmd heap sent = stats h p

/-- The pool with any statistics in its threads. -/
def withInfo (p : Pool) (info : Addr → Fin 3 → ℕ) : Pool :=
  { p with heap := fun a => { p.heap a with info := info a } }

@[simp] theorem length_numbers (t : ThreadStat) : t.numbers.length = 16 := by
  simp [ThreadStat.numbers]

@[simp] theorem length_fields (t : ThreadStat) : t.fields.length = 17 := by
  simp [ThreadStat.fields]

@[simp] theorem length_bytes (t : ThreadStat) : t.bytes.length = sizeofThreadStat := by
  simp [ThreadStat.bytes, sizeofThreadStat]

theorem length_records (l : List ThreadStat) :
    (l.map ThreadStat.bytes).flatten.length = l.length * sizeofThreadStat := by
  induction l with
  | nil => simp
  | cons t l ih =>
    rw [List.map_cons, List.flatten_cons, List.length_append, ih, length_bytes, List.length_cons,
      Nat.succ_mul, Nat.add_comm]

/-! ### The buffer -/

section Buffer
variable {p : Pool}

theorem length_all {idle all : List Addr} (hl : Lists idle all p) : all.length = p.threadNb := by
  simpa using congrArg List.length hl.nbs

/-- A record that is stored, when the bytes from its place on are left alone after that. -/
theorem load_record {buf buf' : ℕ → UInt8} (t : ThreadStat) {q : ℕ}
    (hsame : ∀ x, q ≤ x → buf' x = store buf q t.fields x) : load buf' q 17 = t.fields := by
  have hfields := load_store_self buf q t.fields
  rw [length_fields] at hfields
  rw [← hfields]
  apply load_congr
  intro x hx _
  exact hsame x hx

theorem serializeLoop_chain {l : List Addr} :
    ∀ {fuel : ℕ} {start : Option Addr} (buf : ℕ → UInt8), Chain p.nextAll start l →
      l.length < fuel → ∃ buf', serializeLoop p fuel start l.length buf = some buf' ∧
        (∀ x, x < 4 ∨ 4 + sizeofThreadStat * l.length ≤ x → buf' x = buf x) ∧
        ∀ i (hi : i < l.reverse.length), load buf' (4 + sizeofThreadStat * i) 17 =
          (ThreadStat.loadFrom (p.heap l.reverse[i])).fields := by
  induction l with
  | nil =>
    intro fuel start buf hc hf
    obtain ⟨fuel, rfl⟩ := Nat.exists_eq_add_of_lt hf
    refine ⟨buf, ?_, fun x _ => rfl, fun i hi => absurd hi (Nat.not_lt_zero i)⟩
    simp [chain_empty.mp hc, serializeLoop]
  | cons a l ih =>
    intro fuel start buf hc hf
    obtain ⟨rfl, htail⟩ := chain_head.mp hc
    cases fuel with
    | zero => simp at hf
    | succ fuel =>
      have hs : sizeofThreadStat = 20 := rfl
      obtain ⟨buf', hbuf', hsame, hload⟩ := ih (store buf (4 + sizeofThreadStat * l.length)
        (ThreadStat.loadFrom (p.heap a)).fields) htail (by simpa using hf)
      refine ⟨buf', ?_, ?_, ?_⟩
      · rw [List.length_cons, serializeLoop]
        exact hbuf'
      · intro x hx
        rw [List.length_cons, Nat.mul_succ] at hx
        rw [hsame x (by omega)]
        apply store_outside
        rw [length_fields]
        omega
      · intro i hi
        by_cases hil : i < l.reverse.length
        · simp only [List.reverse_cons, List.getElem_append_left hil]
          exact hload i hil
        · have hlast : i = l.length := by
            simp only [List.reverse_cons, List.length_append, List.length_reverse,
              List.length_cons, List.length_nil] at hi hil
            omega
          subst hlast
          rw [load_record (ThreadStat.loadFrom (p.heap a)) fun x hx => hsame x (Or.inr hx)]
          simp

/-- The buffer of a pool whose list of all threads is `all`. -/
theorem getThreadStatistics_eq {idle all : List Addr} {fuel : ℕ} (hl : Lists idle all p)
    (hf : all.length < fuel) :
    ∃ buf, getThreadStatistics fuel p = some buf ∧ wordAt buf 0 = payloadSize p ∧
      ∀ i (hi : i < all.reverse.length), load buf (4 + sizeofThreadStat * i) 17 =
        (ThreadStat.loadFrom (p.heap all.reverse[i])).fields := by
  have hnb : p.threadNb = all.length := (length_all hl).symm
  obtain ⟨buf, hbuf, hsame, hload⟩ :=
    serializeLoop_chain (store (fun _ => 0) 0 (wordBytes (payloadSize p))) hl.all_chain hf
  refine ⟨buf, ?_, ?_, hload⟩
  · rw [getThreadStatistics, hnb]
    exact hbuf
  · have hword : load buf 0 4 = wordBytes (payloadSize p) := by
      have hstore := load_store_self (fun _ => (0 : UInt8)) 0 (wordBytes (payloadSize p))
      rw [length_wordBytes] at hstore
      rw [← hstore]
      apply load_congr
      intro x _ hx
      exact hsame x (Or.inl (by omega))
    rw [wordAt, hword, wordOf_wordBytes]

theorem length_sent_le {fuel : ℕ} {sent : List UInt8} {buf : ℕ → UInt8}
    (hbuf : getThreadStatistics fuel p = some buf) (hword : wordAt buf 0 = payloadSize p)
    (h : statCommand fuel p = some sent) : sent.length ≤ p.threadNb * sizeofThreadStat := by
  have hle : (payloadSize p).toNat ≤ p.threadNb * sizeofThreadStat := by
    rw [payloadSize, UInt32.toNat_ofNat']
    exact Nat.mod_le _ _
  simp only [statCommand, hbuf, Option.map_some, hword, Option.some.injEq] at h
  subst h
  split_ifs
  · simpa using hle
  · simp

end Buffer

theorem lists_withInfo {idle all : List Addr} {p : Pool} (hl : Lists idle all p)
    (info : Addr → Fin 3 → ℕ) : Lists idle all (withInfo p info) :=
  ⟨hl.idle_chain, hl.all_chain, hl.nbs, hl.idle_sub⟩

/-- The number sent is that of the records alone, but it counts the four bytes of the prefix too:
the last four bytes of the buffer are never sent. -/
theorem stat_never_round_trips {h : List Event} {p : Pool} (r : Run h p)
    (info : Addr → Fin 3 → ℕ) (fuel : ℕ) (hf : (createdIn h).length < fuel) :
    ∃ sent, statCommand fuel (withInfo p info) = some sent ∧
      ¬ RoundTrip h (withInfo p info) sent := by
  have hl := lists_withInfo (run_invariant r).lists info
  obtain ⟨buf, hbuf, hword, -⟩ := getThreadStatistics_eq hl hf
  obtain ⟨sent, hsent⟩ : ∃ sent, statCommand fuel (withInfo p info) = some sent := by
    simp [statCommand, hbuf]
  refine ⟨sent, hsent, ?_⟩
  intro hround
  have hle := length_sent_le hbuf hword hsent
  have hlen := congrArg List.length hround.bytes
  rw [List.length_append, length_wordBytes, length_records, stats, List.length_map,
    List.length_reverse, length_all hl] at hlen
  omega

/-! ### What the client gets -/

section Client

/-- The words of a record are known from its first sixteen bytes. -/
theorem statAt_numbers {m : ℕ → UInt8} {a : ℕ} {t : ThreadStat} (h : load m a 16 = t.numbers) :
    statAt m a = { t with active := m (a + 16) } := by
  have hsplit : load m a 16 =
      load m a 4 ++ load m (a + 4) 4 ++ load m (a + 8) 4 ++ load m (a + 12) 4 := by
    rw [← load_add, ← load_add, ← load_add]
  rw [hsplit, ThreadStat.numbers] at h
  obtain ⟨h, h3⟩ := List.append_inj h (by simp)
  obtain ⟨h, h2⟩ := List.append_inj h (by simp)
  obtain ⟨h0, h1⟩ := List.append_inj h (by simp)
  have hinfo : (fun i : Fin 3 => wordAt m (a + 4 + 4 * i)) = t.info := by
    funext i
    rcases i with ⟨_ | _ | _ | i, hi⟩
    · simp [wordAt, h1, infoCol]
    · simp [wordAt, Nat.add_assoc, h2, readCol]
    · simp [wordAt, Nat.add_assoc, h3, writeCol]
    · omega
  rw [statAt, hinfo, wordAt, h0, wordOf_wordBytes]

theorem statAt_fields {m : ℕ → UInt8} {a : ℕ} {t : ThreadStat} (h : load m a 17 = t.fields) :
    load m a 16 = t.numbers ∧ m (a + 16) = t.active := by
  rw [load_add m a 16 1, load_one, ThreadStat.fields] at h
  obtain ⟨hn, ha⟩ := List.append_inj h (by simp)
  exact ⟨hn, by simpa using ha⟩

/-- What the client has in its buffer after the bytes of a server's buffer from the prefix on,
the last four left out. -/
theorem received_record {buf heap : ℕ → UInt8} {n i : ℕ} {t : ThreadStat} (hi : i < n)
    (h : load buf (4 + sizeofThreadStat * i) 17 = t.fields) :
    statAt (store heap 0 (load buf 4 (sizeofThreadStat * n - 4))) (sizeofThreadStat * i) =
      if i + 1 = n then { t with active := heap (sizeofThreadStat * i + 16) } else t := by
  have hle : sizeofThreadStat * i + 20 ≤ sizeofThreadStat * n := by
    simp only [sizeofThreadStat]
    omega
  have hbefore : i + 1 ≠ n → sizeofThreadStat * i + 40 ≤ sizeofThreadStat * n := by
    simp only [sizeofThreadStat]
    omega
  have hat : i + 1 = n → sizeofThreadStat * n = sizeofThreadStat * i + 20 := by
    rintro rfl
    rfl
  obtain ⟨hn, ha⟩ := statAt_fields h
  have hin : ∀ x, x < sizeofThreadStat * n - 4 →
      store heap 0 (load buf 4 (sizeofThreadStat * n - 4)) x = buf (4 + x) := by
    intro x hx
    rw [store_inside _ _ _ (Nat.zero_le x) (by simpa using hx)]
    simp [getElem_load]
  have hnumbers : load (store heap 0 (load buf 4 (sizeofThreadStat * n - 4)))
      (sizeofThreadStat * i) 16 = t.numbers := by
    rw [← hn, ← load_shift]
    apply load_congr
    intro x _ hx
    exact hin x (by omega)
  rw [statAt_numbers hnumbers]
  by_cases hlast : i + 1 = n
  · have heq := hat hlast
    rw [if_pos hlast, store_outside]
    intro _
    rw [length_load]
    omega
  · have hlt := hbefore hlast
    rw [if_neg hlast, hin _ (by omega), ← Nat.add_assoc, ha]

/-- The client takes the prefix of the buffer off the bytes sent, so its own buffer ends four
bytes early. -/
theorem readFromServer_load (heap : ℕ → UInt8) {buf : ℕ → UInt8} {n : ℕ} (hn : 4 ≤ n)
    (hword : (wordAt buf 0).toNat = n) :
    readFromServer heap (load buf 0 n) = (n, store heap 0 (load buf 4 (n - 4))) := by
  have hsplit : load buf 0 n = load buf 0 4 ++ load buf 4 (n - 4) := by
    rw [← load_add, Nat.add_sub_cancel' hn]
  have hlong : ¬ (load buf 0 n).length < 4 := by
    rw [length_load]
    omega
  have hsize : (wordOf (load buf 0 4)).toNat = n := hword
  rw [readFromServer, if_neg hlong, hsplit, List.take_left' (length_load _ _ _),
    List.drop_left' (length_load _ _ _), hsize]
  exact congrArg (fun l => (n, store heap 0 l)) (List.take_of_length_le (by simp))

/-- The client gets every field of every thread but the active flag of the last one, for which
it shows what its buffer held before. -/
theorem client_misses_last_flag {h : List Event} {p : Pool} (r : Run h p)
    (info : Addr → Fin 3 → ℕ) (heap : ℕ → UInt8) (fuel : ℕ) (hf : (createdIn h).length < fuel)
    (hpos : 0 < p.threadNb) (hsize : p.threadNb * sizeofThreadStat < 2 ^ 31) :
    ∃ sent, statCommand fuel (withInfo p info) = some sent ∧
      sendStatCmd heap sent = (stats h (withInfo p info)).mapIdx fun i t =>
        if i + 1 = p.threadNb then { t with active := heap (sizeofThreadStat * i + 16) }
        else t := by
  have hmul : p.threadNb * sizeofThreadStat = sizeofThreadStat * p.threadNb := Nat.mul_comm _ _
  have hge : 20 ≤ p.threadNb * sizeofThreadStat := Nat.mul_le_mul_right 20 hpos
  have hl := lists_withInfo (run_invariant r).lists info
  obtain ⟨buf, hbuf, hword, hload⟩ := getThreadStatistics_eq hl hf
  have hnat : (payloadSize (withInfo p info)).toNat = p.threadNb * sizeofThreadStat := by
    have hlt : p.threadNb * sizeofThreadStat < 2 ^ 32 := by omega
    exact toNat_ofNat hlt
  refine ⟨load buf 0 (p.threadNb * sizeofThreadStat), ?_, ?_⟩
  · simp only [statCommand, hbuf, Option.map_some, hword, hnat, if_pos hsize]
  have hcount : (stats h (withInfo p info)).length = p.threadNb := by
    rw [stats, List.length_map, List.length_reverse, length_all hl]
    rfl
  have hread : readFromServer heap (load buf 0 (p.threadNb * sizeofThreadStat)) =
      (p.threadNb * sizeofThreadStat,
        store heap 0 (load buf 4 (sizeofThreadStat * p.threadNb - 4))) := by
    rw [readFromServer_load heap (by omega) (by rw [hword, hnat]), hmul]
  rw [sendStatCmd, hread]
  apply List.ext_getElem
  · rw [List.length_map, List.length_range, List.length_mapIdx, hcount]
    exact Nat.mul_div_cancel _ (by decide)
  · intro i hi hi'
    rw [List.length_mapIdx, hcount] at hi'
    have hrev : i < (createdIn h).reverse.length := by
      have : (stats h (withInfo p info)).length = (createdIn h).reverse.length := by simp [stats]
      omega
    rw [List.getElem_map, List.getElem_range, received_record hi' (hload i hrev),
      List.getElem_mapIdx]
    simp [stats]

end Client

/-- Two threads, both serving. -/
def twoThreads : Pool := ((init staleHeap).handleNewConnection 5 0 0).handleNewConnection 6 1 0

theorem two_threads_not_round_trip :
    ∃ sent, statCommand 3 (withInfo twoThreads fun _ _ => 7) = some sent ∧
      ¬ RoundTrip [.created 1, .created 0] (withInfo twoThreads fun _ _ => 7) sent :=
  stat_never_round_trips
    (.connect 6 1 0 (.connect 5 0 0 (.init staleHeap) (by decide)) (by decide)) _ 3 (by decide)

/-- With no thread not even the payload size is sent. -/
theorem no_thread_sends_nothing :
    ¬ ∀ h p, Run h p → ∀ info fuel, (createdIn h).length < fuel →
      ∃ sent, statCommand fuel (withInfo p info) = some sent ∧
        RoundTrip h (withInfo p info) sent := by
  intro hall
  obtain ⟨sent, hsent, hround⟩ := hall [] (init staleHeap) (.init staleHeap) (fun _ _ => 0) 1
    (by decide)
  have hnil : statCommand 1 (withInfo (init staleHeap) fun _ _ => 0) = some [] := by decide
  rw [hnil, Option.some.injEq] at hsent
  have hbytes := congrArg List.length hround.bytes
  rw [← hsent, List.length_append, length_wordBytes] at hbytes
  simp at hbytes
  omega

end ThreadStatistics
