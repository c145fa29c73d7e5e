import QuietLwip.Apps.KvStore

/-!
# The request loop of the key-value server

`main` of `kv_server.c` reads into one buffer of 4096 bytes that keeps what earlier requests left behind.
The commands are compared with its first four bytes, whatever the length of the packet; `ADD:` and `GET:`
then copy differences of the length and fixed offsets into the key and the value of `temp_kv`. A turn of
the loop lists the memory that it uses beside what it computes.
-/

namespace QuietLwip.Apps.KvServer

open KvStore

def bufLen : ℕ := 4096

/-- `PING` -/
def recvPingStr : List UInt8 := [0x50, 0x49, 0x4e, 0x47]
/-- `PONG` -/
def sendPingStr : List UInt8 := [0x50, 0x4f, 0x4e, 0x47]
/-- `ADD:` -/
def recvAddStr : List UInt8 := [0x41, 0x44, 0x44, 0x3a]
/-- `ADDED` -/
def sendAddStr : List UInt8 := [0x41, 0x44, 0x44, 0x45, 0x44]
/-- `GET:` -/
def recvGetStr : List UInt8 := [0x47, 0x45, 0x54, 0x3a]
/-- ` ** NOT FOUND **` -/
def getNotfound : List UInt8 :=
  [0x20, 0x2a, 0x2a, 0x20, 0x4e, 0x4f, 0x54, 0x20, 0x46, 0x4f, 0x55, 0x4e, 0x44, 0x20, 0x2a, 0x2a]

/-- What `read` does: it fails, or it puts bytes at the front of the buffer. -/
inductive Received where
  | failed
  | packet (bytes : List UInt8) (h : bytes.length ≤ bufLen)

namespace Received

def bytes : Received → List UInt8
  | failed => []
  | packet bytes _ => bytes

/-- `recv_len` -/
def recvLen : Received → ℤ
  | failed => -1
  | packet bytes _ => bytes.length

end Received

structure Server where
  buf : ℕ → UInt8
  tempKv : Kv
  kv : Store

/-- The server in front of its first `read` -/
def Server.init : Server := ⟨fun _ => 0, Kv.zero, keyValueInit⟩

/-- `memcpy(buf, bytes, n)` -/
def put (buf : ℕ → UInt8) (bytes : List UInt8) : ℕ → UInt8 := fun i => bytes[i]?.getD (buf i)

/-- `memset(buf, 0, buf_len)` -/
def clear (buf : ℕ → UInt8) : ℕ → UInt8 := fun i => if i < bufLen then 0 else buf i

/-- A use of memory in the dispatch -/
inductive Use where
  /-- a comparison, a scan or a copy that reads bytes of `buf` -/
  | read (offset n : ℕ)
  /-- bytes written from the front of `buf` on -/
  | write (n : ℕ)
  /-- bytes of `temp_kv.key`, from its front on -/
  | key (n : ℕ)
  /-- bytes of `temp_kv.value`, from its front on -/
  | value (n : ℕ)
  /-- a difference that is used as a `size_t` -/
  | size (n : ℤ)
  deriving DecidableEq

/-- The use stays inside what it is a use of; of `buf`, the bytes just received are what may be read. -/
def Use.Inside (r : Received) : Use → Prop
  | read offset n => ((offset + n : ℕ) : ℤ) ≤ r.recvLen ∧ offset + n ≤ bufLen
  | write n => n ≤ bufLen
  | key n => n ≤ keyLen
  | value n => n ≤ valueLen
  | size n => 0 ≤ n

instance (r : Received) (u : Use) : Decidable (u.Inside r) := by
  cases u <;> unfold Use.Inside <;> infer_instance

/-- What one turn of the loop uses, leaves and writes to the connection -/
structure Turn where
  uses : List Use
  next : Server
  reply : Option (List UInt8)

variable (qs : Qsort Kv kvCompare)

/-- `memcmp(buf, str, strlen(str)) == 0` -/
def isCommand (buf : ℕ → UInt8) (str : List UInt8) : Prop :=
  memcmp ((List.range str.length).map buf) str = 0

instance (buf : ℕ → UInt8) (str : List UInt8) : Decidable (isCommand buf str) :=
  inferInstanceAs (Decidable (_ = _))

def ping (s : Server) : Turn where
  uses := [.write bufLen, .write sendPingStr.length]
  next := { s with buf := put (clear s.buf) sendPingStr }
  reply := some sendPingStr

/-- The bytes behind the command that the loop looks at for the delimiter -/
def scanned (buf : ℕ → UInt8) (recvLen : ℤ) : ℕ :=
  match delimiter buf recvLen with
  | some i => i + 1
  | none => min (sizeT (sizeT (recvLen - keyOffset) - 1)) keyLen

/-- The uses of `key_value_add` -/
def keyValueAddUses (kv : Store) (pair : Kv) : List Use :=
  .key keyLen :: match keyValueFind kv pair with
    | some _ => [.value (valueLen - 1)]
    | none => [.key (keyLen - 1), .value (valueLen - 1)]

/-- A copy that is longer than its field leaves the front of the bytes there, and writes behind it. -/
def add (s : Server) (recvLen : ℤ) : Turn :=
  let uses := [.size (recvLen - keyOffset), .size ((sizeT (recvLen - keyOffset) : ℤ) - 1),
    .read keyOffset (scanned s.buf recvLen)]
  match delimiter s.buf recvLen with
  | none => ⟨uses, s, none⟩
  | some i =>
    let valueOffset := keyOffset + i + 1
    let n := sizeT (recvLen - valueOffset)
    let pair : Kv := ⟨filled s.buf keyOffset i, filled s.buf valueOffset n⟩
    { uses := uses ++ [.key keyLen, .value valueLen, .read keyOffset i, .key i,
        .size (recvLen - valueOffset), .read valueOffset n, .value n]
        ++ keyValueAddUses s.kv pair ++ [.write bufLen, .write sendAddStr.length]
      next := ⟨put (clear s.buf) sendAddStr, pair, keyValueAdd qs s.kv pair⟩
      reply := some sendAddStr }

def get (s : Server) (recvLen : ℤ) : Turn :=
  let n := sizeT (recvLen - keyOffset)
  let tempKv := { s.tempKv with key := filled s.buf keyOffset n }
  { uses := [.key keyLen, .size (recvLen - keyOffset), .read keyOffset n, .key n, .key keyLen]
    next := { s with tempKv := tempKv }
    reply := some (match s.kv.entry tempKv with
      | some found => found.value.toList
      | none => getNotfound) }

/-- The comparisons with the commands, up to the first that holds -/
def dispatch (s : Server) (recvLen : ℤ) : Turn :=
  if isCommand s.buf recvPingStr then
    { ping s with uses := .read 0 recvPingStr.length :: (ping s).uses }
  else if isCommand s.buf recvAddStr then
    { add qs s recvLen with
      uses := .read 0 recvPingStr.length :: .read 0 recvAddStr.length :: (add qs s recvLen).uses }
  else if isCommand s.buf recvGetStr then
    { get s recvLen with
      uses := .read 0 recvPingStr.length :: .read 0 recvAddStr.length :: .read 0 recvGetStr.length
        :: (get s recvLen).uses }
  else
    ⟨[.read 0 recvPingStr.length, .read 0 recvAddStr.length, .read 0 recvGetStr.length], s, none⟩

/-- A turn of the loop: a read of length 0 is the end of a connection, and a failed read is dispatched. -/
def turn (s : Server) (r : Received) : Turn :=
  if r.recvLen = 0 then ⟨[], s, none⟩
  else dispatch qs { s with buf := put s.buf r.bytes } r.recvLen

/-- The server as it was, but for the bytes that were received -/
structure Rejected (s : Server) (r : Received) (t : Turn) : Prop where
  next_eq : t.next = { s with buf := put s.buf r.bytes }
  reply_eq : t.reply = none

/-- The length of the key in front of a delimiter that is followed by a byte of the value -/
def keySize (l : List UInt8) : Option ℕ :=
  (List.range keyLen).find? fun i => keyOffset + i + 1 < l.length ∧ l[keyOffset + i]? = some addDelim

/-- Every use of the turn is inside, and a packet that is shorter than a command or has no end of a key
within the length of a key leaves the server as it was. -/
structure TurnSafe (s : Server) (r : Received) : Prop where
  inside : ∀ u ∈ (turn qs s r).uses, u.Inside r
  short : r.bytes.length < keyOffset → Rejected s r (turn qs s r)
  long : recvAddStr <+: r.bytes → keySize r.bytes = none → Rejected s r (turn qs s r)

/-- Every turn of the run is safe. -/
def RunSafe : Server → List Received → Prop
  | _, [] => True
  | s, r :: rs => TurnSafe qs s r ∧ RunSafe (turn qs s r).next rs

/-- The packet ends the connection, or it has a whole command with bytes that fit: `ADD:` is followed by
something, the value behind the delimiter fits into `temp_kv.value`, what is behind `GET:` into
`temp_kv.key`. -/
def Fits (r : Received) : Prop :=
  r.recvLen = 0 ∨ keyOffset ≤ r.bytes.length
    ∧ (recvAddStr <+: r.bytes → keyOffset < r.bytes.length
      ∧ ∀ i ∈ keySize r.bytes, r.bytes.length - (keyOffset + i + 1) ≤ valueLen)
    ∧ (recvGetStr <+: r.bytes → r.bytes.length - keyOffset ≤ keyLen)

instance : DecidablePred Fits := fun _ => inferInstanceAs (Decidable (_ ∨ _))

/-! ## The bytes of a packet -/

variable {qs} {s : Server} {r : Received} {buf : ℕ → UInt8} {l str : List UInt8} {rs : List Received}

theorem sizeT_of_natCast {n : ℕ} (h : n ≤ bufLen) : sizeT (n : ℤ) = n := by
  have hlt : (n : ℤ) < 2 ^ 64 := by
    rw [bufLen] at h
    omega
  rw [sizeT, Int.emod_eq_of_lt (Int.natCast_nonneg n) hlt, Int.toNat_natCast]

theorem sizeT_sub {n m : ℕ} (hn : n ≤ bufLen) (hm : m ≤ n) : sizeT ((n : ℤ) - m) = n - m := by
  rw [← Int.natCast_sub hm]
  exact sizeT_of_natCast ((Nat.sub_le n m).trans hn)

theorem put_nil (buf : ℕ → UInt8) : put buf [] = buf := by
  funext i
  rfl

theorem put_of_lt {i : ℕ} (h : i < l.length) : put buf l i = l[i] := by
  rw [put, List.getElem?_eq_getElem h, Option.getD_some]

/-- What a comparison with a command says when it stays inside the packet -/
theorem isCommand_put (h : str.length ≤ l.length) : isCommand (put buf l) str ↔ str <+: l := by
  have hfront : (List.range str.length).map (put buf l) = l.take str.length := by
    apply List.ext_getElem
    · simp [h]
    · intro i hi _
      have hlt : i < l.length := by
        rw [List.length_map, List.length_range] at hi
        omega
      rw [List.getElem_map, List.getElem_range, List.getElem_take, put_of_lt hlt]
  have hlen : (l.take str.length).length = str.length := List.length_take_of_le h
  rw [isCommand, hfront, memcmp_eq_zero hlen, List.prefix_iff_eq_take]
  exact eq_comm

theorem isCommand_iff (hbuf : s.buf = put buf l) (hmin : keyOffset ≤ l.length) (h : str.length = 4) :
    isCommand s.buf str ↔ str <+: l := by
  rw [hbuf]
  exact isCommand_put (h.trans_le hmin)

theorem recvLen_packet {l : List UInt8} (h : l.length ≤ bufLen) :
    (Received.packet l h).recvLen = l.length := rfl

/-- The loop finds the end of the key inside the packet. -/
theorem delimiter_put (hlt : keyOffset < l.length) (hle : l.length ≤ bufLen) :
    delimiter (put buf l) l.length = keySize l := by
  have hone : ((l.length - keyOffset : ℕ) : ℤ) - 1 = ((l.length - keyOffset - 1 : ℕ) : ℤ) := by omega
  have hbound : sizeT ((sizeT ((l.length : ℤ) - keyOffset) : ℤ) - 1) = l.length - keyOffset - 1 := by
    rw [sizeT_sub hle hlt.le, hone]
    exact sizeT_of_natCast (by omega)
  rw [delimiter, keySize, hbound]
  congr 1
  funext i
  rw [decide_eq_decide]
  constructor
  · rintro ⟨hi, hd⟩
    have hin : keyOffset + i < l.length := by omega
    rw [put_of_lt hin] at hd
    exact ⟨by omega, by rw [List.getElem?_eq_getElem hin, hd]⟩
  · rintro ⟨hi, hd⟩
    have hin : keyOffset + i < l.length := by omega
    rw [List.getElem?_eq_getElem hin, Option.some_inj] at hd
    exact ⟨by omega, by rw [put_of_lt hin, hd]⟩

theorem keySize_bounds {i : ℕ} (h : keySize l = some i) : i < keyLen ∧ keyOffset + i + 1 < l.length := by
  have hmem : i < keyLen := List.mem_range.mp (List.mem_of_find?_eq_some h)
  have hsome := List.find?_some h
  rw [decide_eq_true_eq] at hsome
  exact ⟨hmem, hsome.1⟩

theorem scanned_put (hlt : keyOffset < l.length) (hle : l.length ≤ bufLen) :
    keyOffset + scanned (put buf l) l.length ≤ l.length := by
  rw [scanned, delimiter_put hlt hle]
  cases hkey : keySize l with
  | some i =>
    have := (keySize_bounds hkey).2
    show keyOffset + (i + 1) ≤ l.length
    omega
  | none =>
    have hsub : sizeT ((sizeT ((l.length : ℤ) - keyOffset) : ℤ) - 1) ≤ l.length - keyOffset := by
      rw [sizeT_sub hle hlt.le, show ((l.length - keyOffset : ℕ) : ℤ) - 1 = ((l.length - keyOffset - 1 : ℕ) : ℤ)
        by omega, sizeT_of_natCast (by omega)]
      omega
    show keyOffset + min _ _ ≤ l.length
    omega

/-! ## One turn -/

theorem addUses_inside (kv : Store) (pair : Kv) : ∀ u ∈ keyValueAddUses kv pair, u.Inside r := by
  intro u hu
  rw [keyValueAddUses] at hu
  cases hfind : keyValueFind kv pair <;> rw [hfind] at hu <;>
    simp only [List.mem_cons, List.not_mem_nil, or_false] at hu
  · rcases hu with rfl | rfl | rfl <;> simp [Use.Inside, keyLen, valueLen]
  · rcases hu with rfl | rfl <;> simp [Use.Inside, keyLen, valueLen]

theorem read_inside {h : l.length ≤ bufLen} {offset n : ℕ} :
    (Use.read offset n).Inside (.packet l h) ↔ offset + n ≤ l.length := by
  rw [Use.Inside, recvLen_packet, Int.ofNat_le]
  exact ⟨fun hread => hread.1, fun hread => ⟨hread, hread.trans h⟩⟩

/-- A packet has one command. -/
theorem command_unique {str' : List UInt8} (h : str <+: l) (hne : str ≠ str')
    (hlen : str.length = str'.length) : ¬ str' <+: l := by
  intro h'
  rw [List.prefix_iff_eq_take] at h h'
  exact hne (by rw [h, h', hlen])

/-- The first comparison is made before anything is known of the packet. -/
theorem read_mem_dispatch (s : Server) (n : ℤ) : Use.read 0 recvPingStr.length ∈ (dispatch qs s n).uses := by
  rw [dispatch]
  split_ifs <;> exact List.mem_cons_self

/-- `ADD:` alone has no byte for a key. -/
theorem add_alone {h : l.length ≤ bufLen} (hlen : l.length = keyOffset) :
    ¬ ∀ u ∈ (add qs s l.length).uses, u.Inside (.packet l h) := by
  intro hall
  have hunder : Use.size ((sizeT ((l.length : ℤ) - keyOffset) : ℤ) - 1) ∈ (add qs s l.length).uses := by
    rw [add]
    dsimp only
    split <;> simp
  have hzero : sizeT ((l.length : ℤ) - keyOffset) = 0 := by
    rw [hlen, sub_self]
    rfl
  rw [hzero] at hunder
  have hneg : (0 : ℤ) ≤ (0 : ℕ) - 1 := hall _ hunder
  omega

/-- The scan for the delimiter stays inside a packet that has more than the command. -/
theorem scan_inside {h : l.length ≤ bufLen} (hlt : keyOffset < l.length) (hbuf : s.buf = put buf l) :
    ∀ u ∈ [Use.size ((l.length : ℤ) - keyOffset), .size ((sizeT ((l.length : ℤ) - keyOffset) : ℤ) - 1),
      .read keyOffset (scanned s.buf l.length)], u.Inside (.packet l h) := by
  have hscan : keyOffset + scanned (put buf l) l.length ≤ l.length := scanned_put hlt h
  have hsub := sizeT_sub h hlt.le
  intro u hu
  simp only [List.mem_cons, List.not_mem_nil, or_false] at hu
  rcases hu with rfl | rfl | rfl
  · show (0 : ℤ) ≤ _
    omega
  · show (0 : ℤ) ≤ _
    rw [hsub]
    omega
  · rw [read_inside, hbuf]
    exact hscan

/-- An `ADD:` with nothing behind it underflows; one with a value that is too long overruns its field. -/
theorem add_inside {h : l.length ≤ bufLen} (hmin : keyOffset ≤ l.length) (hbuf : s.buf = put buf l) :
    (∀ u ∈ (add qs s l.length).uses, u.Inside (.packet l h))
      ↔ keyOffset < l.length ∧ ∀ i ∈ keySize l, l.length - (keyOffset + i + 1) ≤ valueLen := by
  rcases hmin.eq_or_lt with heq | hlt
  · exact iff_of_false (add_alone heq.symm) fun hlt => by omega
  · have hfixed := scan_inside (h := h) hlt hbuf
    have hdelim : delimiter s.buf l.length = keySize l := by rw [hbuf, delimiter_put hlt h]
    rw [add]
    dsimp only
    rw [hdelim]
    cases hkey : keySize l with
    | none =>
      refine iff_of_true hfixed ⟨hlt, fun i hi => ?_⟩
      cases hi
    | some i =>
      obtain ⟨hi, hin⟩ := keySize_bounds hkey
      have hvalue : sizeT ((l.length : ℤ) - (keyOffset + i + 1 : ℕ)) = l.length - (keyOffset + i + 1) :=
        sizeT_sub h hin.le
      dsimp only
      rw [hvalue]
      constructor
      · intro hall
        refine ⟨hlt, fun j hj => ?_⟩
        cases hj
        exact hall (.value (l.length - (keyOffset + i + 1))) (by simp)
      · rintro ⟨-, hfit⟩ u hu
        simp only [List.mem_append, List.append_assoc] at hu
        rcases hu with hu | hu | hu | hu
        · exact hfixed u hu
        · simp only [List.mem_cons, List.not_mem_nil, or_false] at hu
          rcases hu with rfl | rfl | rfl | rfl | rfl | rfl | rfl
          · exact le_refl keyLen
          · exact le_refl valueLen
          · rw [read_inside]
            omega
          · exact hi.le
          · show (0 : ℤ) ≤ _
            omega
          · rw [read_inside]
            omega
          · exact hfit i rfl
        · exact addUses_inside s.kv _ u hu
        · simp only [List.mem_cons, List.not_mem_nil, or_false] at hu
          rcases hu with rfl | rfl
          · exact le_refl bufLen
          · show sendAddStr.length ≤ bufLen
            decide

theorem get_inside {h : l.length ≤ bufLen} (hmin : keyOffset ≤ l.length) :
    (∀ u ∈ (get s l.length).uses, u.Inside (.packet l h)) ↔ l.length - keyOffset ≤ keyLen := by
  have hn : sizeT ((l.length : ℤ) - keyOffset) = l.length - keyOffset := sizeT_sub h hmin
  rw [get]
  dsimp only
  rw [hn]
  constructor
  · intro hall
    exact hall (.key (l.length - keyOffset)) (by simp)
  · intro hfit u hu
    simp only [List.mem_cons, List.not_mem_nil, or_false] at hu
    rcases hu with rfl | rfl | rfl | rfl | rfl
    · exact le_refl keyLen
    · show (0 : ℤ) ≤ _
      omega
    · rw [read_inside]
      omega
    · exact hfit
    · exact le_refl keyLen

theorem ping_inside : ∀ u ∈ (ping s).uses, u.Inside r := by
  intro u hu
  rw [ping] at hu
  simp only [List.mem_cons, List.not_mem_nil, or_false] at hu
  rcases hu with rfl | rfl
  · exact le_refl bufLen
  · show sendPingStr.length ≤ bufLen
    decide

/-- The whole dispatch of a packet that has a command -/
theorem dispatch_inside {h : l.length ≤ bufLen} (hmin : keyOffset ≤ l.length) (hbuf : s.buf = put buf l) :
    (∀ u ∈ (dispatch qs s l.length).uses, u.Inside (.packet l h)) ↔ Fits (.packet l h) := by
  have hread : ∀ str : List UInt8, str.length = 4 → (Use.read 0 str.length).Inside (.packet l h) := by
    intro str hstr
    rw [read_inside, hstr, Nat.zero_add]
    exact hmin
  have hne : ((Received.packet l h).recvLen = 0) = False := by
    rw [recvLen_packet]
    rw [keyOffset] at hmin
    exact eq_false (by omega)
  have hcommand : ∀ str : List UInt8, str.length = 4 → (isCommand s.buf str ↔ str <+: l) :=
    fun _ => isCommand_iff hbuf hmin
  rw [dispatch, Fits, hne, false_or]
  by_cases hping : recvPingStr <+: l
  · rw [if_pos ((hcommand _ rfl).mpr hping)]
    have hadd : ¬ recvAddStr <+: l := command_unique hping (by decide) rfl
    have hget : ¬ recvGetStr <+: l := command_unique hping (by decide) rfl
    refine iff_of_true (fun u hu => ?_) ⟨hmin, fun h => (hadd h).elim, fun h => (hget h).elim⟩
    rcases List.mem_cons.mp hu with rfl | hu
    · exact hread _ rfl
    · exact ping_inside u hu
  rw [if_neg fun hc => hping ((hcommand _ rfl).mp hc)]
  by_cases hadd : recvAddStr <+: l
  · rw [if_pos ((hcommand _ rfl).mpr hadd)]
    have hget : ¬ recvGetStr <+: l := command_unique hadd (by decide) rfl
    dsimp only
    rw [List.forall_mem_cons, List.forall_mem_cons, add_inside hmin hbuf]
    exact ⟨fun hall => ⟨hmin, fun _ => hall.2.2, fun h => (hget h).elim⟩,
      fun hfit => ⟨hread _ rfl, hread _ rfl, hfit.2.1 hadd⟩⟩
  rw [if_neg fun hc => hadd ((hcommand _ rfl).mp hc)]
  by_cases hget : recvGetStr <+: l
  · rw [if_pos ((hcommand _ rfl).mpr hget)]
    dsimp only
    rw [List.forall_mem_cons, List.forall_mem_cons, List.forall_mem_cons, get_inside hmin]
    exact ⟨fun hall => ⟨hmin, fun h => (hadd h).elim, fun _ => hall.2.2.2⟩,
      fun hfit => ⟨hread _ rfl, hread _ rfl, hread _ rfl, hfit.2.2 hget⟩⟩
  · rw [if_neg fun hc => hget ((hcommand _ rfl).mp hc)]
    refine iff_of_true (fun u hu => ?_) ⟨hmin, fun h => (hadd h).elim, fun h => (hget h).elim⟩
    simp only [List.mem_cons, List.not_mem_nil, or_false] at hu
    rcases hu with rfl | rfl | rfl <;> exact hread _ rfl

/-- An `ADD:` without the end of a key is passed over. -/
theorem dispatch_long (hlt : keyOffset < l.length) (hle : l.length ≤ bufLen) (hbuf : s.buf = put buf l)
    (hadd : recvAddStr <+: l) (hkey : keySize l = none) :
    (dispatch qs s l.length).next = s ∧ (dispatch qs s l.length).reply = none := by
  have hping : ¬ isCommand s.buf recvPingStr := by
    rw [isCommand_iff hbuf hlt.le rfl]
    exact command_unique hadd (by decide) rfl
  have hcommand : isCommand s.buf recvAddStr := (isCommand_iff hbuf hlt.le rfl).mpr hadd
  have hdelim : delimiter s.buf l.length = none := by rw [hbuf, delimiter_put hlt hle, hkey]
  rw [dispatch, if_neg hping, if_pos hcommand, add]
  dsimp only
  rw [hdelim]
  exact ⟨rfl, rfl⟩

theorem turn_of_ne (h : r.recvLen ≠ 0) :
    turn qs s r = dispatch qs { s with buf := put s.buf r.bytes } r.recvLen := by
  rw [turn, if_neg h]

theorem rejected_end (h : r.recvLen = 0) (hnil : r.bytes = []) : Rejected s r (turn qs s r) := by
  rw [turn, if_pos h]
  exact ⟨by rw [hnil, put_nil], rfl⟩

/-- A packet without room for a command fails at the first comparison. -/
theorem not_turnSafe_of_short (hne : r.recvLen ≠ 0) (hlt : r.recvLen < 4) : ¬ TurnSafe qs s r := by
  intro hsafe
  have hmem : Use.read 0 recvPingStr.length ∈ (turn qs s r).uses := by
    rw [turn_of_ne hne]
    exact read_mem_dispatch _ _
  have hread : ((0 + 4 : ℕ) : ℤ) ≤ r.recvLen := (hsafe.inside _ hmem).1
  omega

theorem turnSafe_iff (qs : Qsort Kv kvCompare) (s : Server) (r : Received) : TurnSafe qs s r ↔ Fits r := by
  cases r with
  | failed =>
    refine iff_of_false (not_turnSafe_of_short (by decide) (by decide)) ?_
    rintro (h | ⟨h, -⟩)
    · exact absurd h (by decide)
    · exact absurd h (by decide)
  | packet l h =>
    rcases Nat.eq_zero_or_pos l.length with hzero | hpos
    · have hnil : l = [] := List.length_eq_zero_iff.mp hzero
      subst hnil
      have hrej : Rejected s (.packet [] h) (turn qs s (.packet [] h)) := rejected_end rfl rfl
      refine iff_of_true ⟨fun u hu => ?_, fun _ => hrej, fun _ _ => hrej⟩ (.inl rfl)
      have huses : (turn qs s (.packet [] h)).uses = [] := rfl
      rw [huses] at hu
      cases hu
    · have hne : (Received.packet l h).recvLen ≠ 0 := by
        rw [recvLen_packet]
        omega
      rcases lt_or_ge l.length keyOffset with hlt | hmin
      · refine iff_of_false (not_turnSafe_of_short hne (Int.ofNat_lt.mpr hlt)) ?_
        rintro (hend | ⟨hge, -⟩)
        · exact hne hend
        · exact absurd hlt (not_lt_of_ge hge)
      · have hinside : (∀ u ∈ (dispatch qs { s with buf := put s.buf l } l.length).uses,
            u.Inside (.packet l h)) ↔ Fits (.packet l h) := dispatch_inside hmin rfl
        have hturn : turn qs s (.packet l h) = dispatch qs { s with buf := put s.buf l } l.length :=
          turn_of_ne hne
        constructor
        · intro hsafe
          rw [← hinside, ← hturn]
          exact hsafe.inside
        · intro hfit
          refine ⟨?_, fun hlt => absurd hlt (not_lt_of_ge hmin), fun hadd hkey => ?_⟩
          · rw [hturn, hinside]
            exact hfit
          · rcases hfit with hend | ⟨-, hfit, -⟩
            · exact (hne hend).elim
            · have hlong : (dispatch qs { s with buf := put s.buf l } l.length).next
                    = { s with buf := put s.buf l }
                  ∧ (dispatch qs { s with buf := put s.buf l } l.length).reply = none :=
                dispatch_long (hfit hadd).1 h rfl hadd hkey
              rw [hturn]
              exact ⟨hlong.1, hlong.2⟩

/-! ## Runs -/

/-- Exactly the runs whose packets all fit are safe, whatever earlier packets left in the buffer. -/
theorem runSafe_iff (qs : Qsort Kv kvCompare) (s : Server) (rs : List Received) :
    RunSafe qs s rs ↔ ∀ r ∈ rs, Fits r := by
  induction rs generalizing s with
  | nil => simp [RunSafe]
  | cons r rs ih => rw [RunSafe, turnSafe_iff, ih, List.forall_mem_cons]

/-- `GET:` with a key of 33 bytes -/
def longKey : Received := .packet (recvGetStr ++ .replicate 33 0x61) (by decide)

/-- `GET:a` -/
def shortKey : Received := .packet (recvGetStr ++ [0x61]) (by decide)

/-- `GET:` copies a key of 33 bytes into 32; a failed read is taken for the request before it, with a length
of 2^64 - 5. -/
theorem runSafe_longKey :
    Use.key 33 ∈ (turn Qsort.insertion Server.init longKey).uses
    ∧ ¬ RunSafe Qsort.insertion Server.init [longKey]
    ∧ Use.key (2 ^ 64 - 5)
      ∈ (turn Qsort.insertion (turn Qsort.insertion Server.init shortKey).next .failed).uses
    ∧ ¬ RunSafe Qsort.insertion Server.init [shortKey, .failed] := by
  refine ⟨by decide +kernel, fun h => ?_, by decide +kernel, fun h => ?_⟩
  · have hfit : Fits longKey := (turnSafe_iff _ _ _).mp h.1
    revert hfit
    decide +kernel
  · have hfit : Fits .failed := (turnSafe_iff _ _ _).mp h.2.1
    revert hfit
    decide +kernel

/-! ## What the server stores

The store of a safe run went through `key_value_add` for pairs that an `ADD:` is made of, so that it shows a
finite map.
-/

def served (qs : Qsort Kv kvCompare) (s : Server) (rs : List Received) : Server :=
  rs.foldl (fun s r => (turn qs s r).next) s

theorem get_kv (s : Server) (n : ℤ) : (get s n).next.kv = s.kv := rfl

theorem add_kv {n : ℤ} (h : ∀ m, Use.value m ∈ (add qs s n).uses → m ≤ valueLen) :
    (add qs s n).next.kv = s.kv
      ∨ ∃ pair, addRequest s.buf n = some pair ∧ (add qs s n).next.kv = keyValueAdd qs s.kv pair := by
  rw [add] at h ⊢
  cases hdelim : delimiter s.buf n with
  | none => exact .inl rfl
  | some i =>
    rw [hdelim] at h
    have hfit : ¬ valueLen < sizeT (n - (keyOffset + i + 1 : ℕ)) := not_lt_of_ge (h _ (by simp))
    refine .inr ⟨_, ?_, rfl⟩
    rw [addRequest, hdelim]
    exact if_neg hfit

/-- A safe turn leaves the store or adds what an `ADD:` asks for. -/
theorem turn_kv (h : TurnSafe qs s r) : (turn qs s r).next.kv = s.kv
    ∨ ∃ pair buf n, addRequest buf n = some pair ∧ (turn qs s r).next.kv = keyValueAdd qs s.kv pair := by
  have hvalue : ∀ m, Use.value m ∈ (turn qs s r).uses → m ≤ valueLen := fun m hm => h.inside _ hm
  rw [turn] at hvalue ⊢
  split_ifs at hvalue ⊢
  · exact .inl rfl
  rw [dispatch] at hvalue ⊢
  split_ifs at hvalue ⊢
  · exact .inl rfl
  · have hadd := add_kv fun m hm => hvalue m (List.mem_cons_of_mem _ (List.mem_cons_of_mem _ hm))
    rcases hadd with hsame | ⟨pair, hpair, hnext⟩
    · exact .inl hsame
    · exact .inr ⟨pair, _, _, hpair, hnext⟩
  · exact .inl (get_kv _ _)
  · exact .inl rfl

/-- The store of a run whose packets fit is the finite map of the pairs that were added. -/
theorem served_refines (h : ∀ r ∈ rs, Fits r) : ∃ ops : List Op,
    (served qs .init rs).kv = run qs ops ∧ Refines (Model.run ops) (served qs .init rs).kv := by
  suffices hops : ∃ ops : List Op, (served qs .init rs).kv = run qs ops
      ∧ ∀ pair, Op.add pair ∈ ops → ∃ buf n, addRequest buf n = some pair by
    obtain ⟨ops, hrun, hpairs⟩ := hops
    exact ⟨ops, hrun, hrun ▸ requests_refine hpairs⟩
  induction rs using List.reverseRecOn with
  | nil => exact ⟨[], rfl, fun pair hmem => absurd hmem List.not_mem_nil⟩
  | append_singleton rs r ih =>
    obtain ⟨ops, hrun, hpairs⟩ := ih fun r' hr' => h r' (List.mem_append_left _ hr')
    have hlast : served qs .init (rs ++ [r]) = (turn qs (served qs .init rs) r).next := by
      rw [served, List.foldl_concat, served]
    have hsafe : TurnSafe qs (served qs .init rs) r := (turnSafe_iff _ _ _).mpr (h r (by simp))
    rw [hlast]
    rcases turn_kv hsafe with hsame | ⟨pair, buf, n, hpair, hnext⟩
    · exact ⟨ops, hsame.trans hrun, hpairs⟩
    · refine ⟨ops ++ [.add pair], ?_, fun other hmem => ?_⟩
      · rw [hnext, hrun, run_concat, step]
      · rcases List.mem_append.mp hmem with hold | hnew
        · exact hpairs other hold
        · cases List.mem_singleton.mp hnew
          exact ⟨buf, n, hpair⟩

end QuietLwip.Apps.KvServer
