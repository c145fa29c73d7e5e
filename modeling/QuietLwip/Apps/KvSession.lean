import QuietLwip.Apps.KvServer

/-!
# Requests and replies of the key-value server

What a client sends to `kv_server` is one request for each connection, and what it prints is the reply up to
the first NUL. As long as the keys and the values fit into their fields, the clients see a dictionary of
texts, whatever the requests before have left in the buffers.
-/

namespace QuietLwip.Apps.KvServer

open KvStore

/-! ## Texts in fields -/

/-- What `printf` shows of the bytes of a field -/
def printed (l : List UInt8) : List UInt8 := l.takeWhile (· ≠ 0)

/-- A text that leaves room for a NUL in a field -/
def Fit (l : List UInt8) : Prop := l.length < keyLen ∧ 0 ∉ l

instance (l : List UInt8) : Decidable (Fit l) := inferInstanceAs (Decidable (_ ∧ _))

/-- The text in a cleared field -/
def field {m : ℕ} (l : List UInt8) : List.Vector UInt8 m := .ofFn fun i => l[i.val]?.getD 0

variable {l key value : List UInt8} {m : ℕ} {qs : Qsort Kv kvCompare} {s : Server}

theorem field_toList (h : l.length ≤ m) :
    (field l : List.Vector UInt8 m).toList = l ++ .replicate (m - l.length) 0 := by
  apply List.ext_getElem
  · simp [h]
  · intro i hi _
    have hi : i < m := by simpa using hi
    simp only [field, List.Vector.toList_ofFn, List.getElem_ofFn]
    by_cases hlt : i < l.length
    · simp [hlt, List.getElem_append_left]
    · simp [hlt, List.getElem_append_right (Nat.not_lt.mp hlt)]

theorem printed_append_zeros (h : 0 ∉ l) (n : ℕ) : printed (l ++ .replicate n 0) = l := by
  have hall : ∀ a ∈ l, decide (a ≠ 0) = true := by
    intro a ha
    exact decide_eq_true fun hzero => h (hzero ▸ ha)
  rw [printed, List.takeWhile_append_of_pos hall]
  cases n <;> simp [List.replicate_succ]

theorem printed_of_noNul (h : 0 ∉ l) : printed l = l := by
  simpa using printed_append_zeros h 0

theorem printed_field (h : 0 ∉ l) (hle : l.length ≤ m) :
    printed (field l : List.Vector UInt8 m).toList = l := by
  rw [field_toList hle, printed_append_zeros h]

theorem field_last (h : l.length < m) : (field l : List.Vector UInt8 m).toList.drop (m - 1) = [0] := by
  have hone : m - l.length - (m - 1 - l.length) = 1 := by omega
  rw [field_toList h.le, List.drop_append, List.drop_eq_nil_of_le (by omega), List.drop_replicate, hone]
  rfl

theorem field_injective {l' : List UInt8} (h : Fit l) (h' : Fit l') (heq : (field l : Key) = field l') :
    l = l' := by
  rw [← printed_field h.2 h.1.le, heq, printed_field h'.2 h'.1.le]

theorem filled_put {bytes : List UInt8} {offset n : ℕ} (buf : ℕ → UInt8) (h : offset + n ≤ bytes.length) :
    (filled (put buf bytes) offset n : List.Vector UInt8 m) = field ((bytes.drop offset).take n) := by
  rw [filled, field]
  congr 1
  funext i
  by_cases hi : i.val < n
  · have hin : offset + i < bytes.length := by omega
    rw [if_pos hi, put_of_lt hin, List.getElem?_take_of_lt hi, List.getElem?_drop,
      List.getElem?_eq_getElem hin]
    rfl
  · simp [hi]

/-! ## The protocol -/

inductive Request where
  | ping
  | add (key value : List UInt8)
  | get (key : List UInt8)
  deriving DecidableEq

/-- The request as it is given to the client, which sends the string without its NUL -/
def Request.bytes : Request → List UInt8
  | ping => recvPingStr
  | add key value => recvAddStr ++ (key ++ addDelim :: value)
  | get key => recvGetStr ++ key

/-- The texts fit into the fields of the server, and the key of a pair ends at the first `=`. -/
def Request.Fits : Request → Prop
  | ping => True
  | add key value => Fit key ∧ addDelim ∉ key ∧ Fit value ∧ value ≠ []
  | get key => Fit key

instance : DecidablePred Request.Fits
  | .ping => inferInstanceAs (Decidable True)
  | .add _ _ => inferInstanceAs (Decidable (_ ∧ _))
  | .get _ => inferInstanceAs (Decidable (Fit _))

/-- What `read` gives the server: the whole request, or nothing at the end of a connection -/
def arrival (request : Option Request) : Received :=
  let bytes := (request.map Request.bytes).getD []
  if h : bytes.length ≤ bufLen then .packet bytes h else .failed

/-- What is written to the connections, turn by turn -/
def replies (qs : Qsort Kv kvCompare) : Server → List Received → List (Option (List UInt8))
  | _, [] => []
  | s, r :: rs => (turn qs s r).reply :: replies qs (turn qs s r).next rs

/-! ## The dictionary -/

abbrev Dictionary := List UInt8 → Option (List UInt8)

/-- What the requests mean to the clients -/
def Dictionary.answers : Dictionary → List (Option Request) → List (Option (List UInt8))
  | _, [] => []
  | d, none :: rs => none :: answers d rs
  | d, some .ping :: rs => some sendPingStr :: answers d rs
  | d, some (.add key value) :: rs => some sendAddStr :: answers (Function.update d key (some value)) rs
  | d, some (.get key) :: rs => some ((d key).getD getNotfound) :: answers d rs

/-! ## One turn -/

theorem Request.Fits.length_le {request : Request} (h : request.Fits) : request.bytes.length ≤ bufLen := by
  cases request with
  | ping => decide
  | add key value =>
    obtain ⟨⟨hkey, -⟩, -, ⟨hvalue, -⟩, -⟩ := h
    simp only [Request.bytes, recvAddStr, List.length_append, List.length_cons, List.length_nil, bufLen]
    rw [keyLen] at hkey hvalue
    omega
  | get key =>
    obtain ⟨hkey, -⟩ := h
    simp only [Request.bytes, recvGetStr, List.length_append, List.length_cons, List.length_nil, bufLen]
    rw [keyLen] at hkey
    omega

theorem arrival_some {request : Request} (h : request.Fits) :
    arrival (some request) = .packet request.bytes h.length_le := dif_pos h.length_le

theorem turn_arrival {request : Request} (h : request.Fits) (hmin : keyOffset ≤ request.bytes.length) :
    turn qs s (arrival (some request)) =
      dispatch qs { s with buf := put s.buf request.bytes } request.bytes.length := by
  rw [arrival_some h]
  refine turn_of_ne ?_
  rw [recvLen_packet]
  rw [keyOffset] at hmin
  omega

theorem turn_end (qs : Qsort Kv kvCompare) (s : Server) : turn qs s (arrival none) = ⟨[], s, none⟩ := rfl

/-- The comparisons tell the commands apart. -/
theorem isCommand_append {command str : List UInt8} (buf : ℕ → UInt8) (rest : List UInt8)
    (hstr : str.length = 4) (hcommand : command.length = 4) :
    isCommand (put buf (command ++ rest)) str ↔ str = command := by
  have hle : str.length ≤ (command ++ rest).length := by
    rw [List.length_append]
    omega
  rw [isCommand_put hle]
  constructor
  · intro h
    have hprefix := List.prefix_of_prefix_length_le h (List.prefix_append command rest)
      (hstr.trans hcommand.symm).le
    exact hprefix.eq_of_length (hstr.trans hcommand.symm)
  · rintro rfl
    exact List.prefix_append _ _

theorem turn_ping (qs : Qsort Kv kvCompare) (s : Server) :
    (turn qs s (arrival (some .ping))).next.kv = s.kv ∧
      (turn qs s (arrival (some .ping))).reply = some sendPingStr := by
  have hfits : Request.ping.Fits := trivial
  have hcommand : isCommand (put s.buf Request.ping.bytes) recvPingStr :=
    (isCommand_put (l := Request.ping.bytes) le_rfl).mpr (List.prefix_refl _)
  rw [turn_arrival hfits (by decide), dispatch, if_pos hcommand]
  exact ⟨rfl, rfl⟩

theorem length_add (key value : List UInt8) :
    (Request.add key value).bytes.length = keyOffset + key.length + 1 + value.length := by
  simp only [Request.bytes, recvAddStr, keyOffset, List.length_append, List.length_cons, List.length_nil]
  omega

theorem length_get (key : List UInt8) : (Request.get key).bytes.length = keyOffset + key.length := by
  simp only [Request.bytes, recvGetStr, keyOffset, List.length_append, List.length_cons, List.length_nil]

theorem keySize_add (h : (Request.add key value).Fits) :
    keySize (Request.add key value).bytes = some key.length := by
  obtain ⟨⟨hlen, -⟩, hdelim, -, hvalue⟩ := h
  have hbytes : ∀ i, (Request.add key value).bytes[keyOffset + i]? = (key ++ addDelim :: value)[i]? := by
    intro i
    rw [Request.bytes, List.getElem?_append_right (by simp [recvAddStr, keyOffset])]
    simp [recvAddStr, keyOffset]
  have hpos := List.length_pos_iff.mpr hvalue
  rw [keySize, List.find?_range_eq_some]
  refine ⟨?_, List.mem_range.mpr hlen, fun j hj => ?_⟩
  · rw [decide_eq_true_eq, hbytes, List.getElem?_append_right le_rfl, length_add, Nat.sub_self]
    exact ⟨by omega, rfl⟩
  · rw [Bool.not_eq_true', decide_eq_false_iff_not, hbytes, List.getElem?_append_left hj,
      List.getElem?_eq_getElem hj]
    rintro ⟨-, heq⟩
    exact hdelim (Option.some.inj heq ▸ List.getElem_mem hj)

/-- The key and the value are cut out of the packet as the client put them there. -/
theorem filled_add (buf : ℕ → UInt8) (key value : List UInt8) :
    (filled (put buf (Request.add key value).bytes) keyOffset key.length : Key) = field key ∧
      (filled (put buf (Request.add key value).bytes) (keyOffset + key.length + 1) value.length : Value) =
        field value := by
  have hlength := length_add key value
  constructor
  · rw [filled_put _ (by omega)]
    congr 1
    simp [Request.bytes, recvAddStr, keyOffset]
  · have hbytes : (Request.add key value).bytes = (recvAddStr ++ (key ++ [addDelim])) ++ value := by
      simp [Request.bytes]
    have hfront : (recvAddStr ++ (key ++ [addDelim])).length = keyOffset + key.length + 1 := by
      simp only [recvAddStr, keyOffset, List.length_append, List.length_cons, List.length_nil]
      omega
    rw [filled_put _ (by omega), hbytes, List.drop_left' hfront, List.take_length]

theorem turn_add (qs : Qsort Kv kvCompare) (s : Server) (h : (Request.add key value).Fits) :
    (turn qs s (arrival (some (.add key value)))).next.kv =
        keyValueAdd qs s.kv ⟨field key, field value⟩ ∧
      (turn qs s (arrival (some (.add key value)))).reply = some sendAddStr := by
  have hle := h.length_le
  have hlength := length_add key value
  have hping : ¬ isCommand (put s.buf (Request.add key value).bytes) recvPingStr :=
    (isCommand_append s.buf (key ++ addDelim :: value) rfl rfl).not.mpr (by decide)
  have hcommand : isCommand (put s.buf (Request.add key value).bytes) recvAddStr :=
    (isCommand_append s.buf (key ++ addDelim :: value) rfl rfl).mpr rfl
  have hdelim : delimiter (put s.buf (Request.add key value).bytes)
      ((Request.add key value).bytes.length : ℕ) = some key.length := by
    rw [delimiter_put (by omega) hle, keySize_add h]
  have hn : sizeT (((Request.add key value).bytes.length : ℕ) - (keyOffset + key.length + 1 : ℕ)) =
      value.length := by
    rw [sizeT_sub hle (by omega)]
    omega
  obtain ⟨hkey, hvalue⟩ := filled_add s.buf key value
  rw [turn_arrival h (by omega), dispatch, if_neg hping, if_pos hcommand, add]
  dsimp only
  rw [hdelim]
  dsimp only
  rw [hn, hkey, hvalue]
  exact ⟨rfl, rfl⟩

theorem turn_get (qs : Qsort Kv kvCompare) (s : Server) (h : (Request.get key).Fits) :
    (turn qs s (arrival (some (.get key)))).next.kv = s.kv ∧
      (turn qs s (arrival (some (.get key)))).reply =
        some (match s.kv.entry { s.tempKv with key := field key } with
          | some found => found.value.toList
          | none => getNotfound) := by
  have hle := h.length_le
  have hlength := length_get key
  have hping : ¬ isCommand (put s.buf (Request.get key).bytes) recvPingStr :=
    (isCommand_append s.buf key rfl rfl).not.mpr (by decide)
  have hadd : ¬ isCommand (put s.buf (Request.get key).bytes) recvAddStr :=
    (isCommand_append s.buf key rfl rfl).not.mpr (by decide)
  have hcommand : isCommand (put s.buf (Request.get key).bytes) recvGetStr :=
    (isCommand_append s.buf key rfl rfl).mpr rfl
  have hn : sizeT (((Request.get key).bytes.length : ℕ) - keyOffset) = key.length := by
    rw [sizeT_sub hle (by omega)]
    omega
  have hfield : (filled (put s.buf (Request.get key).bytes) keyOffset key.length : Key) = field key := by
    rw [filled_put _ (by omega)]
    congr 1
    simp [Request.bytes, recvGetStr, keyOffset]
  rw [turn_arrival h (by omega), dispatch, if_neg hping, if_neg hadd, if_pos hcommand, get]
  dsimp only
  rw [hn, hfield]
  exact ⟨rfl, rfl⟩

/-! ## The refinement -/

/-- The last byte of every value is the one of the empty slot. -/
def Ended (s : Store) : Prop := ∀ e ∈ s.items, e.value.toList.drop (valueLen - 1) = [0]

theorem Ended.add {pair : Kv} {kv : Store} (h : Ended kv) (hinv : Inv kv) :
    Ended (keyValueAdd qs kv pair) := by
  cases hfind : keyValueFind kv pair with
  | none =>
    rw [add_of_none hfind]
    intro e he
    rcases List.mem_append.mp ((insert_perm hinv).mem_iff.mp he) with he | he
    · exact h e he
    · rw [List.mem_singleton.mp he]
      exact drop_memcpy Kv.zero.value pair.value (by decide)
  | some i =>
    rw [add_of_some hfind]
    intro e he
    rw [items_update] at he
    obtain ⟨j, hj⟩ := List.mem_iff_getElem?.mp he
    rw [List.getElem?_modify] at hj
    obtain ⟨e', he', rfl⟩ := Option.map_eq_some_iff.mp hj
    have hended := h e' (List.mem_of_getElem? he')
    by_cases heq : i = j
    · rw [if_pos heq]
      exact (drop_memcpy e'.value pair.value (by decide)).trans hended
    · rw [if_neg heq]
      exact hended

/-- A text is printed as it was stored. -/
theorem printed_text {v : Value} (hfit : Fit value) (htext : text v = text (field value))
    (hended : v.toList.drop (valueLen - 1) = [0]) : printed v.toList = value := by
  have hlt : value.length < valueLen := hfit.1
  have heq : v.toList = (field value : Value).toList := by
    rw [← List.take_append_drop (valueLen - 1) v.toList, hended, ← field_last hlt]
    exact (congrArg (· ++ _) htext).trans (List.take_append_drop _ _)
  rw [heq, printed_field hfit.2 hlt.le]

/-- The store shows the dictionary: a text is the value of a key if the two fields are an entry. -/
structure Shows (d : Dictionary) (kv : Store) : Prop where
  inv : Inv kv
  ended : Ended kv
  values : ∀ key value, d key = some value → Fit value
  represents : ∃ m, Represents m kv ∧
    ∀ key, Fit key → (m (field key)).map text = (d key).map fun value => text (field value)

theorem Shows.init : Shows (fun _ => none) keyValueInit where
  inv := Inv.init
  ended := fun _ he => (List.not_mem_nil he).elim
  values := fun _ _ h => by cases h
  represents := by
    refine ⟨fun _ => none, ⟨List.nodup_nil, fun k t => ⟨?_, fun h => by cases h⟩⟩, fun _ _ => rfl⟩
    rintro ⟨e, he, -⟩
    exact (List.not_mem_nil he).elim

theorem Shows.add {d : Dictionary} {kv : Store} (h : Shows d kv) (hkey : Fit key) (hvalue : Fit value) :
    Shows (Function.update d key (some value)) (keyValueAdd qs kv ⟨field key, field value⟩) where
  inv := h.inv.step (.add ⟨field key, field value⟩)
  ended := h.ended.add h.inv
  values := by
    intro key' value' hd
    by_cases heq : key' = key
    · rw [heq, Function.update_self, Option.some_inj] at hd
      exact hd ▸ hvalue
    · rw [Function.update_of_ne heq] at hd
      exact h.values key' value' hd
  represents := by
    obtain ⟨m, hm, hd⟩ := h.represents
    refine ⟨_, hm.add h.inv (field_last hkey.1), fun key' hkey' => ?_⟩
    by_cases heq : key' = key
    · rw [heq, Model.step, Function.update_self, Function.update_self]
      rfl
    · have hne : (field key' : Key) ≠ field key := fun hfield => heq (field_injective hkey' hkey hfield)
      rw [Model.step, Function.update_of_ne hne, Function.update_of_ne heq]
      exact hd key' hkey'

/-- A lookup prints the text of the dictionary. -/
theorem Shows.get {d : Dictionary} {kv : Store} (h : Shows d kv) (hkey : Fit key) (v : Value) :
    printed (match kv.entry ⟨field key, v⟩ with
      | some found => found.value.toList
      | none => getNotfound) = (d key).getD getNotfound := by
  obtain ⟨m, hm, hd⟩ := h.represents
  have hentry := hm.entry_eq h.inv ⟨field key, v⟩
  have hmap := hd key hkey
  cases hvalue : d key with
  | none =>
    rw [hvalue, Option.map_none, Option.map_eq_none_iff] at hmap
    dsimp only at hentry
    rw [hmap, Option.map_none, Option.map_eq_none_iff] at hentry
    rw [hentry]
    exact printed_of_noNul (by decide)
  | some value =>
    rw [hvalue] at hmap
    obtain ⟨w, hw, htext⟩ := Option.map_eq_some_iff.mp hmap
    dsimp only at hentry
    rw [hw] at hentry
    obtain ⟨e, he, heq⟩ := Option.map_eq_some_iff.mp hentry
    have hmem : e ∈ kv.items := by
      obtain ⟨i, hi, hkv⟩ := Option.bind_eq_some_iff.mp he
      obtain ⟨e', hitems, hkv', -⟩ := find_eq_some hi
      exact Option.some.inj (hkv.symm.trans hkv') ▸ List.mem_of_getElem? hitems
    rw [he]
    exact printed_text (h.values key value hvalue) ((Prod.mk.inj heq).2.trans htext) (h.ended e hmem)

/-- One turn answers as the dictionary does, and leaves a server that shows what it has become. -/
theorem replies_eq {d : Dictionary} (h : Shows d s.kv) (rs : List (Option Request))
    (hfits : ∀ request, some request ∈ rs → request.Fits) :
    (replies qs s (rs.map arrival)).map (Option.map printed) = d.answers rs := by
  induction rs generalizing s d with
  | nil => rfl
  | cons r rs ih =>
    have hrest : ∀ request, some request ∈ rs → request.Fits :=
      fun request hmem => hfits request (List.mem_cons_of_mem _ hmem)
    rw [List.map_cons, replies, List.map_cons]
    match r with
    | none =>
      rw [turn_end, Dictionary.answers, ih h hrest]
      rfl
    | some .ping =>
      obtain ⟨hkv, hreply⟩ := turn_ping qs s
      rw [hreply, Dictionary.answers, ih (hkv ▸ h) hrest]
      rfl
    | some (.add key value) =>
      have hfit := hfits _ List.mem_cons_self
      obtain ⟨hkv, hreply⟩ := turn_add qs s hfit
      obtain ⟨hkey, -, hvalue, -⟩ := hfit
      rw [hreply, Dictionary.answers, ih (hkv ▸ h.add hkey hvalue) hrest]
      rfl
    | some (.get key) =>
      have hfit := hfits _ List.mem_cons_self
      obtain ⟨hkv, hreply⟩ := turn_get qs s hfit
      rw [hreply, Dictionary.answers, ih (hkv ▸ h) hrest, Option.map_some, h.get hfit]

/-- The clients of a server that has just been started see a dictionary of texts: a reply is the one of
the last pair that was added under the key. -/
theorem clients_see_dictionary (qs : Qsort Kv kvCompare) (rs : List (Option Request))
    (hfits : ∀ request, some request ∈ rs → request.Fits) :
    (replies qs Server.init (rs.map arrival)).map (Option.map printed) =
      Dictionary.answers (fun _ => none) rs :=
  replies_eq Shows.init rs hfits

/-- A longer value that was overwritten leaves nothing behind. -/
theorem clients_see_dictionary_overwritten :
    (replies Qsort.insertion Server.init ([some (.add [0x61] [0x62, 0x63]), some (.add [0x61] [0x64]), none,
      some (.get [0x61]), some (.get [0x62])].map arrival)).map (Option.map printed) =
      [some sendAddStr, some sendAddStr, none, some [0x64], some getNotfound] :=
  (clients_see_dictionary Qsort.insertion [some (.add [0x61] [0x62, 0x63]), some (.add [0x61] [0x64]), none,
    some (.get [0x61]), some (.get [0x62])] (by
      simp only [List.mem_cons, List.not_mem_nil, or_false, Option.some.injEq, reduceCtorEq, false_or]
      rintro request (rfl | rfl | rfl | rfl) <;> decide)).trans (by decide)

end QuietLwip.Apps.KvServer
