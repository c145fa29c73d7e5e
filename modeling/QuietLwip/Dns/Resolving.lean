import QuietLwip.Dns.Encoding
import QuietLwip.Dns.Requests
import QuietLwip.Ip.Output

/-!
# From a query to its answer

A name server copies the identification and the question of a query, and puts records behind them. The module
takes the first of them that is an Internet address, whoever owns it.
-/

namespace QuietLwip.Dns

open Ip

/-! ### What a server writes -/

/-- The name in front of a record: labels, up to the root or a compression pointer. -/
inductive Owner : List UInt8 → Prop
  | pointer {hi lo : UInt8} (hn : isPointer hi) : Owner [hi, lo]
  | last {n : UInt8} {label : List UInt8} (hn : ¬ isPointer n) (hpos : n ≠ 0)
    (hlabel : label.length = n.toNat) : Owner (n :: (label ++ [0]))
  | label {n : UInt8} {label name : List UInt8} (hn : ¬ isPointer n) (hpos : n ≠ 0)
    (hlabel : label.length = n.toNat) (h : Owner name) : Owner (n :: (label ++ name))

/-- What a record says. -/
inductive RData
  | a (ipaddr : IpAddr)
  | other (type cls : UInt16) (bytes : List UInt8) (hlen : bytes.length < 65536)
    (h : ¬ (type.toNat = DNS_RRTYPE_A ∧ cls.toNat = DNS_RRCLASS_IN ∧ bytes.length = 4))

namespace RData

def type : RData → ℕ
  | a _ => DNS_RRTYPE_A
  | other type _ _ _ _ => type.toNat

def cls : RData → ℕ
  | a _ => DNS_RRCLASS_IN
  | other _ cls _ _ _ => cls.toNat

def bytes : RData → List UInt8
  | a ipaddr => netWord (ipaddr.toNat / 65536) ++ netWord (ipaddr.toNat % 65536)
  | other _ _ bytes _ _ => bytes

end RData

/-- A resource record. -/
structure Record where
  name : List UInt8
  ttl : UInt32
  rdata : RData
  owner : Owner name

namespace Record

/-- What stands between the name and the data. -/
def head (r : Record) : List UInt8 :=
  netWord r.rdata.type ++ netWord r.rdata.cls ++ netWord (r.ttl.toNat / 65536) ++ netWord (r.ttl.toNat % 65536) ++
    netWord r.rdata.bytes.length

def bytes (r : Record) : List UInt8 := r.name ++ (r.head ++ r.rdata.bytes)

/-- The address in the record, if it is one, with its time to live. -/
def addr (r : Record) : Option (UInt32 × IpAddr) :=
  match r.rdata with
  | .a ipaddr => some (r.ttl, ipaddr)
  | .other .. => none

end Record

/-- What a server adds to a question. The counts are those of the authorities and of the additional records, which
are in `tail`. -/
structure Response where
  flags1 : UInt8
  flags2 : UInt8
  records : List Record
  counts : List UInt8
  tail : List UInt8
  response : flags1 &&& DNS_FLAG1_RESPONSE ≠ 0
  noError : flags2 &&& DNS_FLAG2_ERR_MASK = 0
  counted : counts.length = 4

/-- The message to a query. -/
def Response.message (r : Response) (query : List UInt8) : List UInt8 :=
  query.take 2 ++ [r.flags1, r.flags2] ++ (query.drop 4).take 2 ++ netWord r.records.length ++ r.counts ++
    (query.drop SIZEOF_DNS_HDR ++ (r.records.flatMap Record.bytes ++ r.tail))

/-! ### What the module reads -/

theorem word_netWord {n : ℕ} (h : n < 65536) : word (.ofNat (n / 256)) (.ofNat (n % 256)) = n := by
  rw [word, UInt8.toNat_ofNat', UInt8.toNat_ofNat']
  omega

theorem Owner.skips {name : List UInt8} (h : Owner name) (rest : List UInt8) : Skips (name ++ rest) rest := by
  induction h with
  | pointer hn => exact .pointer hn
  | @last n label hn hpos hlabel =>
    rw [List.cons_append, List.append_assoc]
    exact .last hn hlabel
  | @label n label name hn hpos hlabel h ih =>
    rw [List.cons_append, List.append_assoc]
    cases h with
    | @pointer hi lo hptr =>
      refine .label hn hlabel ?_ ih
      rintro rfl
      cases hptr
    | last hn' hpos' hlabel' => exact .label hn hlabel hpos' ih
    | label hn' hpos' hlabel' h' => exact .label hn hlabel hpos' ih

theorem RData.type_lt (d : RData) : d.type < 65536 := by
  cases d with
  | a ipaddr => exact (by decide : DNS_RRTYPE_A < 65536)
  | other type => exact type.toNat_lt

theorem RData.cls_lt (d : RData) : d.cls < 65536 := by
  cases d with
  | a ipaddr => exact (by decide : DNS_RRCLASS_IN < 65536)
  | other type cls => exact cls.toNat_lt

theorem RData.length_lt (d : RData) : d.bytes.length < 65536 := by
  cases d with
  | a ipaddr => exact (by decide : 4 < 65536)
  | other type cls bytes hlen h => exact hlen

section record

variable (r : Record) (rest : List UInt8)

theorem answerHdr_record : answerHdr (r.head ++ rest) =
    ⟨r.rdata.type, r.rdata.cls, r.ttl, r.rdata.bytes.length⟩ := by
  have hhi : r.ttl.toNat / 65536 < 65536 := by
    have := r.ttl.toNat_lt
    omega
  have hlo : r.ttl.toNat % 65536 < 65536 := Nat.mod_lt _ (by decide)
  have httl : UInt32.ofNat (r.ttl.toNat / 65536 * 65536 + r.ttl.toNat % 65536) = r.ttl := by
    rw [Nat.div_add_mod', UInt32.ofNat_toNat]
  change (⟨word _ _, word _ _, .ofNat (word _ _ * 65536 + word _ _), word _ _⟩ : DnsAnswer) = _
  rw [← httl]
  simp only [Record.head, netWord, List.cons_append, List.nil_append, List.getD_cons_zero, List.getD_cons_succ,
    word_netWord r.rdata.type_lt, word_netWord r.rdata.cls_lt, word_netWord r.rdata.length_lt,
    word_netWord hhi, word_netWord hlo, httl]

theorem isAddr_iff : (answerHdr (r.head ++ rest)).isAddr ↔ ∃ ipaddr, r.rdata = .a ipaddr := by
  rw [answerHdr_record, DnsAnswer.isAddr, decide_eq_true_iff]
  cases h : r.rdata with
  | a ipaddr => exact iff_of_true ⟨rfl, rfl, rfl⟩ ⟨ipaddr, rfl⟩
  | other type cls bytes hlen hnot =>
    refine iff_of_false hnot ?_
    rintro ⟨ipaddr, h⟩
    cases h

theorem addrAt_bytes (ipaddr : IpAddr) : addrAt ((RData.a ipaddr).bytes ++ rest) = ipaddr := by
  have hhi : ipaddr.toNat / 65536 < 65536 := by
    have := ipaddr.isLt
    omega
  have hlo : ipaddr.toNat % 65536 < 65536 := Nat.mod_lt _ (by decide)
  simp only [addrAt, RData.bytes, netWord, List.cons_append, List.nil_append, List.getD_cons_zero,
    List.getD_cons_succ, word_netWord hhi, word_netWord hlo]
  rw [Nat.div_add_mod', BitVec.ofNat_toNat, BitVec.setWidth_eq]

end record

/-- The loop over the answers finds the first record that is an address. -/
theorem answerLoop_records (records : List Record) (tail : List UInt8) :
    answerLoop records.length (records.flatMap Record.bytes ++ tail) = some (records.findSome? Record.addr) := by
  induction records with
  | nil => rfl
  | cons r records ih =>
    obtain ⟨rest, hrest⟩ : ∃ rest, rest = records.flatMap Record.bytes ++ tail := ⟨_, rfl⟩
    have hbytes : (r :: records).flatMap Record.bytes ++ tail = r.name ++ (r.head ++ (r.rdata.bytes ++ rest)) := by
      rw [List.flatMap_cons, Record.bytes, hrest]
      simp only [List.append_assoc]
    have hskip := r.owner.skips (r.head ++ (r.rdata.bytes ++ rest))
    have hhead : r.head.length = SIZEOF_DNS_ANSWER := rfl
    have hlen : SIZEOF_DNS_ANSWER ≤ (r.head ++ (r.rdata.bytes ++ rest)).length := by
      rw [List.length_append, hhead]
      exact Nat.le_add_right ..
    have hdrop : (r.head ++ (r.rdata.bytes ++ rest)).drop SIZEOF_DNS_ANSWER = r.rdata.bytes ++ rest :=
      List.drop_left' hhead
    rw [hbytes, List.length_cons, List.findSome?_cons]
    by_cases haddr : (answerHdr (r.head ++ (r.rdata.bytes ++ rest))).isAddr
    · rw [answerLoop_addr hskip hlen haddr, hdrop, answerHdr_record]
      obtain ⟨ipaddr, hip⟩ := (isAddr_iff r _).mp haddr
      have hfour : ¬ (r.rdata.bytes ++ rest).length < 4 := by
        rw [List.length_append, hip, show (RData.a ipaddr).bytes.length = 4 from rfl]
        omega
      rw [if_neg hfour, Record.addr, hip, addrAt_bytes]
    · rw [answerLoop_other hskip hlen haddr, ← List.drop_drop, hdrop, answerHdr_record]
      have hnone : r.addr = none := by
        rw [isAddr_iff] at haddr
        rw [Record.addr]
        cases h : r.rdata with
        | a ipaddr => exact absurd ⟨ipaddr, h⟩ haddr
        | other => rfl
      rw [List.drop_left, hnone, hrest]
      exact ih

/-! ### The message -/

section message

variable {p query : List UInt8} {name : CString} {labels : List (List UInt8)} {s : Resolver} {i : Index}
  {id : UInt8} {r : Response}

/-- The query for a name with labels. -/
theorem dnsSendQuery_labels (hp : p.length = querySize) (hlabels : Labels name.1 labels) (hname : name.1 ≠ [])
    (hshort : name.1.length + 2 ≤ DNS_MAX_NAME_LENGTH) :
    dnsSendQuery p name id = .ok (queryHdr id ++ encodeName labels ++ queryType) := by
  rw [dnsSendQuery_eq hp (by omega), if_pos hshort, hlabels.eq_splitOn hname]

/-- The message with its parts in place. -/
theorem message_eq (r : Response) (id : UInt8) (enc : List UInt8) :
    r.message (queryHdr id ++ enc ++ queryType) = [0, id, r.flags1, r.flags2, 0, 1] ++
      netWord r.records.length ++ r.counts ++
        (enc ++ (queryType ++ (r.records.flatMap Record.bytes ++ r.tail))) := by
  simp only [Response.message, queryHdr, List.append_assoc, List.cons_append, List.nil_append,
    SIZEOF_DNS_HDR, List.take_succ_cons, List.take_zero, List.drop_succ_cons, List.drop_zero]

theorem question_message (r : Response) (id : UInt8) (enc : List UInt8) :
    question (r.message (queryHdr id ++ enc ++ queryType)) =
      enc ++ (queryType ++ (r.records.flatMap Record.bytes ++ r.tail)) := by
  rw [message_eq, question]
  refine List.drop_left' ?_
  simp only [List.length_append, r.counted]
  rfl

theorem length_message (r : Response) (id : UInt8) (enc : List UInt8) :
    (r.message (queryHdr id ++ enc ++ queryType)).length = SIZEOF_DNS_HDR +
      (enc.length + (SIZEOF_DNS_QUERY + ((r.records.flatMap Record.bytes).length + r.tail.length))) := by
  rw [message_eq]
  simp only [List.length_append, r.counted]
  rfl

theorem Owner.two_le {name : List UInt8} (h : Owner name) : 2 ≤ name.length := by
  induction h with
  | pointer => exact le_rfl
  | last => simp
  | label hn hpos hlabel h ih =>
    rw [List.length_cons, List.length_append]
    omega

/-- A record has at least twelve bytes. -/
theorem length_records (records : List Record) :
    12 * records.length ≤ (records.flatMap Record.bytes).length := by
  induction records with
  | nil => simp
  | cons r records ih =>
    have howner := r.owner.two_le
    have hhead : r.head.length = 10 := rfl
    simp only [List.flatMap_cons, List.length_append, List.length_cons, Record.bytes, hhead]
    omega

/-- A message that is not too long says how many records there are. -/
theorem dnsHdr_message (r : Response) (id : UInt8) (enc : List UInt8) (h : r.records.length < 65536) :
    dnsHdr (r.message (queryHdr id ++ enc ++ queryType)) = ⟨id.toNat, r.flags1, r.flags2, 1, r.records.length⟩ := by
  have hid : word 0 id = id.toNat := Nat.zero_add _
  have hone : word 0 1 = 1 := rfl
  rw [message_eq]
  simp only [dnsHdr, netWord, List.cons_append, List.nil_append, List.getD_cons_zero, List.getD_cons_succ,
    word_netWord h, hid, hone]

/-- What is found in a message to the query for the name. -/
theorem dnsAnswer_message (hlabels : Labels name.1 labels) (hname : name.1 ≠ [])
    (hcount : r.records.length < 65536) (behind : Behind) :
    dnsAnswer name (r.message (queryHdr id ++ encodeName labels ++ queryType)) behind =
      some (r.records.findSome? Record.addr) := by
  have hspells := (hlabels.question (queryType ++ (r.records.flatMap Record.bytes ++ r.tail))).spells
  have hhdr := dnsHdr_message r id (encodeName labels) hcount
  have hs : Sound (r.message (queryHdr id ++ encodeName labels ++ queryType)) := by
    refine ⟨?_, ?_, ?_⟩
    · rw [hhdr]
      exact r.response
    · rw [hhdr]
      exact r.noError
    · rw [hhdr]
  have hmatch : Matches (name.1 ++ [0]) (question (r.message (queryHdr id ++ encodeName labels ++ queryType))) := by
    rw [question_message]
    exact hspells.compares hname
  have hskip : Skips (question (r.message (queryHdr id ++ encodeName labels ++ queryType)))
      (queryType ++ (r.records.flatMap Record.bytes ++ r.tail)) := by
    rw [question_message]
    exact hspells.skips hname
  have hnothing : dnsAnswer name (r.message (queryHdr id ++ encodeName labels ++ queryType)) nothing =
      some (r.records.findSome? Record.addr) := by
    rw [dnsAnswer_matches hs hmatch hskip, hhdr]
    exact answerLoop_records r.records r.tail
  rw [dnsAnswer_behind, hnothing]
  -- nothing was read behind the message
  apply dnsAnswer_isSome.mp
  rw [hnothing]
  rfl

/-- The message is for the entry whose number is the identification. -/
theorem processed_message (hasking : (s.table i).state = .asking) (enc : List UInt8) (henc : 3 ≤ enc.length)
    (hlen : (r.message (queryHdr (.ofNat i) ++ enc ++ queryType)).length ≤ DNS_MSG_SIZE) (hr : r.records ≠ []) :
    Processed s i (r.message (queryHdr (.ofNat i) ++ enc ++ queryType)) := by
  have hrecords := length_records r.records
  have hpos := List.length_pos_of_ne_nil hr
  have hlength := length_message r (.ofNat i) enc
  rw [hlength] at hlen
  refine ⟨?_, ?_, ?_, hasking⟩
  · rw [hlength]
    exact hlen
  · rw [hlength]
    simp only [SIZEOF_DNS_HDR, SIZEOF_DNS_QUERY, SIZEOF_DNS_ANSWER]
    omega
  · have hcount : r.records.length < 65536 := by
      simp only [DNS_MSG_SIZE] at hlen
      omega
    rw [dnsHdr_message r _ enc hcount]
    have hi : (i : ℕ) < 256 := i.isLt.trans (by decide)
    exact UInt8.toNat_ofNat_of_lt' hi

end message

/-- The entry with the answer. -/
def answered (s : Resolver) (i : Index) (msg : List UInt8) (ttl : UInt32) (ipaddr : IpAddr) : Resolver :=
  (s.emit (.accepted (s.table i).name msg)).setEntry i
    { s.table i with state := .done, err := 0, ttl := min ttl DNS_MAX_TTL, ipaddr := ipaddr }

section answer

variable {p query : List UInt8} {labels : List (List UInt8)} {s : Resolver} {i : Index} {r : Response}

/-- With a message to its query an entry is completed, and its callback learns of the first address in it. -/
theorem dnsRecv_message (hasking : (s.table i).state = .asking) (hlabels : Labels (s.table i).name.1 labels)
    (hname : (s.table i).name.1 ≠ [])
    (hlen : (r.message (queryHdr (.ofNat i) ++ encodeName labels ++ queryType)).length ≤ DNS_MSG_SIZE)
    (hr : r.records ≠ []) (behind : Behind) (calls : List Call) :
    dnsRecv s (r.message (queryHdr (.ofNat i) ++ encodeName labels ++ queryType)) behind calls =
      finish (complete s i (r.message (queryHdr (.ofNat i) ++ encodeName labels ++ queryType))) i calls
        (some (r.records.findSome? Record.addr)) := by
  have henc : 3 ≤ (encodeName labels).length := by
    have hpos := List.length_pos_of_ne_nil hname
    rw [hlabels.eq_splitOn hname, length_encodeName]
    omega
  have hproc := processed_message hasking _ henc hlen hr
  have hcount : r.records.length < 65536 := by
    have hrecords := length_records r.records
    rw [length_message, DNS_MSG_SIZE] at hlen
    omega
  rw [hproc.exec, dnsAnswer_message hlabels hname hcount]

/-- An answer that has been stored is found again. -/
theorem dnsLookup_answered {msg : List UInt8} {ttl : UInt32} {ipaddr : IpAddr}
    (hlocal : dnsLookupLocal s (s.table i).name = IPADDR_NONE)
    (hfresh : ∀ j, (s.table j).holds (s.table i).name = false) :
    dnsLookup (answered s i msg ttl ipaddr) (s.table i).name = ipaddr := by
  have hself : ((answered s i msg ttl ipaddr).table i).holds (s.table i).name := by
    rw [answered, Resolver.setEntry_self]
    exact decide_eq_true ⟨rfl, rfl⟩
  have honly : ∀ j, ((answered s i msg ttl ipaddr).table j).holds (s.table i).name → j = i := by
    intro j hj
    by_contra hne
    rw [answered, Resolver.setEntry_of_ne _ _ hne] at hj
    exact Bool.false_ne_true ((hfresh j).symm.trans hj)
  have hlocal' : dnsLookupLocal (answered s i msg ttl ipaddr) (s.table i).name = IPADDR_NONE := hlocal
  rw [dnsLookup, if_neg (not_not.mpr hlocal')]
  cases hfind : (List.finRange DNS_TABLE_SIZE).find? fun j =>
      ((answered s i msg ttl ipaddr).table j).holds (s.table i).name with
  | none => exact absurd hself (List.find?_eq_none.mp hfind i (List.mem_finRange i))
  | some j =>
    have hholds : ((answered s i msg ttl ipaddr).table j).holds (s.table i).name :=
      List.find?_some (p := fun j => ((answered s i msg ttl ipaddr).table j).holds (s.table i).name) hfind
    obtain rfl := honly j hholds
    change ((answered s j msg ttl ipaddr).table j).ipaddr = ipaddr
    rw [answered, Resolver.setEntry_self]

end answer

theorem owner_c : Owner [1, 0x63, 0] := by
  have h : Owner (1 :: ([0x63] ++ [0])) := .last (by decide) (by decide) rfl
  exact h

/-- An alias "c", and its address behind it -/
def aliasResponse : Response where
  flags1 := 0x81
  flags2 := 0x80
  records := [⟨[0xc0, 12], 60, .other 5 1 [1, 0x63, 0] (by decide) (by decide), .pointer rfl⟩,
    ⟨[1, 0x63, 0], 60, .a 0x0a000001#32, owner_c⟩]
  counts := [0, 0, 0, 0]
  tail := []
  response := by decide
  noError := by decide
  counted := rfl

def firstIndex : Index := ⟨0, tableSize_pos⟩

theorem labels_nameA : Labels nameA.1 [[0x61]] where
  pos := by decide
  short := by decide
  noDot := by decide
  name := rfl

end QuietLwip.Dns
