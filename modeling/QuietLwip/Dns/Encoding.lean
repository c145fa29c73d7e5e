import QuietLwip.Dns.Bounds

/-!
# Queries

`dns_send` from the allocation of the pbuf on. The bytes are written one after the other into the pbuf, and a
write behind its end has no value. The name is stored with its NUL, and a pointer into it is the list of the bytes
from there on.
-/

namespace QuietLwip.Dns

open Fallible Ip

def DNS_FLAG1_RD : UInt8 := 0x01

/-- What is allocated for a query -/
def querySize : ℕ := SIZEOF_DNS_HDR + DNS_MAX_NAME_LENGTH + SIZEOF_DNS_QUERY

/-! ### The packet -/

/-- The bytes are written at `i`. -/
def write (p : List UInt8) (i : ℕ) (bytes : List UInt8) : Except Fault (List UInt8) :=
  if i + bytes.length ≤ p.length then .ok (p.take i ++ bytes ++ p.drop (i + bytes.length)) else .error .bounds

/-- `struct dns_hdr` of a query. -/
def queryHdr (id : UInt8) : List UInt8 := [0, id, DNS_FLAG1_RD, 0, 0, 1, 0, 0, 0, 0, 0, 0]

/-- `struct dns_query`, in network order. -/
def queryType : List UInt8 := [0, .ofNat DNS_RRTYPE_A, 0, .ofNat DNS_RRCLASS_IN]

/-- The two loops over the name, with `n` bytes of a label behind its length byte at `nptr`. -/
def encodeLabels (p : List UInt8) (nptr query : ℕ) (n : UInt8) : List UInt8 → Except Fault (List UInt8 × ℕ)
  | [] => .error .bounds
  | b :: pHostname =>
    if b = 0 then do
      let p ← write p nptr [n]
      .ok (p, query)
    else if b = dot then do
      let p ← write p nptr [n]
      encodeLabels p query (query + 1) 0 pHostname
    else do
      let p ← write p query [b]
      encodeLabels p nptr (query + 1) (n + 1) pHostname

/-- `dns_send` with the pbuf that was allocated: the packet that is sent. -/
def dnsSendQuery (p : List UInt8) (name : CString) (id : UInt8) : Except Fault (List UInt8) := do
  let p ← write p 0 (queryHdr id)
  let (p, query) ← encodeLabels p SIZEOF_DNS_HDR (SIZEOF_DNS_HDR + 1) 0 (name.1 ++ [0])
  let p ← write p query [0]
  let p ← write p (query + 1) queryType
  -- `pbuf_realloc`
  .ok (p.take (query + 1 + SIZEOF_DNS_QUERY))

/-! ### The law -/

/-- The labels that make up a name -/
structure Labels (name : List UInt8) (labels : List (List UInt8)) : Prop where
  pos : ∀ label ∈ labels, label ≠ []
  short : ∀ label ∈ labels, label.length ≤ 63
  noDot : ∀ label ∈ labels, dot ∉ label
  name : [dot].intercalate labels = name

/-- The encoding of the name: the labels behind their lengths, and the root, in 255 bytes -/
def Encoding (name enc : List UInt8) : Prop :=
  ∃ labels, Labels name labels ∧ enc = encodeName labels ∧ enc.length ≤ 255

/-- The packet is a query for the name, and the two functions that read names agree. -/
structure Sent (name : List UInt8) (id : UInt8) (enc packet : List UInt8) : Prop where
  packet : packet = queryHdr id ++ enc ++ queryType
  parses : dnsParseName (enc ++ queryType) = some queryType
  compares : dnsCompareName (name ++ [0]) (enc ++ queryType) = some 0

/-- A name that has an encoding is sent, and any other name is rejected. -/
structure Lawful (s : Resolver) (c : Call) (p : List UInt8) (id : UInt8) : Prop where
  bounds : dnsSendQuery p (CString.take c.hostname (DNS_MAX_NAME_LENGTH - 1)) id ≠ .error .bounds
  sent : ∀ enc, Encoding c.hostname.1 enc → ∃ packet,
    dnsSendQuery p (CString.take c.hostname (DNS_MAX_NAME_LENGTH - 1)) id = .ok packet ∧
      Sent c.hostname.1 id enc packet
  rejected : (∀ enc, ¬ Encoding c.hostname.1 enc) → dnsGethostbyname s c = .ok (s, .arg)

/-! ### Writes -/

section write

variable {p old bytes : List UInt8} {i : ℕ}

theorem write_append (pre rest : List UInt8) (h : bytes.length = old.length) :
    write (pre ++ (old ++ rest)) pre.length bytes = .ok (pre ++ (bytes ++ rest)) := by
  have hfits : pre.length + bytes.length ≤ (pre ++ (old ++ rest)).length := by
    simp only [List.length_append, h]
    omega
  rw [write, if_pos hfits, h, List.take_left, ← List.append_assoc pre old, ← List.length_append,
    List.drop_left, List.append_assoc]

theorem write_byte (pre rest : List UInt8) (x b : UInt8) :
    write (pre ++ ([x] ++ rest)) pre.length [b] = .ok (pre ++ ([b] ++ rest)) :=
  write_append pre rest rfl

theorem write_outside (h : p.length < i + bytes.length) : write p i bytes = .error .bounds :=
  if_neg (Nat.not_le.mpr h)

end write

/-! ### Labels -/

section labels

variable {name : List UInt8} {labels : List (List UInt8)}

theorem dot_not_mem (name acc : List UInt8) (hacc : dot ∉ acc) :
    ∀ label ∈ name.splitOnPPrepend (· == dot) acc, dot ∉ label := by
  induction name generalizing acc with
  | nil => simpa using hacc
  | cons b name ih =>
    by_cases hb : b = dot
    · rw [List.splitOnPPrepend_cons_pos (by simpa using hb)]
      refine List.forall_mem_cons.mpr ⟨by simpa using hacc, ?_⟩
      rw [← List.splitOnPPrepend_nil_right]
      exact ih [] (by simp)
    · rw [List.splitOnPPrepend_cons_neg (by simpa using hb)]
      exact ih (b :: acc) (by simpa using ⟨Ne.symm hb, hacc⟩)

/-- The name has labels if and only if its parts between the dots are. -/
theorem exists_labels (hname : name ≠ []) :
    (∃ labels, Labels name labels) ↔ ∀ label ∈ name.splitOn dot, label ≠ [] ∧ label.length ≤ 63 := by
  constructor
  · rintro ⟨labels, h⟩
    have hne : labels ≠ [] := by
      rintro rfl
      exact hname h.name.symm
    rw [← h.name, List.splitOn_intercalate dot h.noDot hne]
    exact fun label hlabel => ⟨h.pos label hlabel, h.short label hlabel⟩
  · intro h
    exact ⟨name.splitOn dot, fun label hlabel => (h label hlabel).1, fun label hlabel => (h label hlabel).2,
      dot_not_mem name [] (by simp), List.intercalate_splitOn dot⟩

theorem Labels.eq_splitOn (h : Labels name labels) (hname : name ≠ []) : labels = name.splitOn dot := by
  have hne : labels ≠ [] := by
    rintro rfl
    exact hname h.name.symm
  rw [← h.name, List.splitOn_intercalate dot h.noDot hne]

theorem length_encode (name acc : List UInt8) :
    ((name.splitOnPPrepend (· == dot) acc).flatMap fun label => UInt8.ofNat label.length :: label).length =
      acc.length + name.length + 1 := by
  induction name generalizing acc with
  | nil => simp
  | cons b name ih =>
    by_cases hb : b = dot
    · rw [List.splitOnPPrepend_cons_pos (by simpa using hb), List.flatMap_cons, List.length_append,
        ← List.splitOnPPrepend_nil_right, ih]
      simp only [List.length_cons, List.length_reverse, List.length_nil]
      omega
    · rw [List.splitOnPPrepend_cons_neg (by simpa using hb), ih]
      simp only [List.length_cons]
      omega

/-- The encoding has two bytes more than the name. -/
theorem length_encodeName (name : List UInt8) : (encodeName (name.splitOn dot)).length = name.length + 2 := by
  have h := length_encode name []
  rw [List.splitOnPPrepend_nil_right, ← List.splitOn_eq_splitOnP] at h
  rw [encodeName, List.length_append, h]
  simp

end labels

/-! ### The loops -/

section loops

variable {p host : List UInt8} {n : UInt8} {nptr query : ℕ}

/-- A label that would start behind the pbuf is not written. -/
theorem encodeLabels_outside (h : p.length ≤ nptr) (hquery : nptr < query) (host : List UInt8) :
    encodeLabels p nptr query n (host ++ [0]) = .error .bounds := by
  have hnptr : write p nptr [n] = .error .bounds := write_outside (by simp only [List.length_singleton]; omega)
  cases host with
  | nil =>
    rw [List.nil_append, encodeLabels, if_pos rfl, hnptr]
    rfl
  | cons b host =>
    have hput : write p query [b] = .error .bounds := write_outside (by simp only [List.length_singleton]; omega)
    rw [List.cons_append, encodeLabels]
    by_cases hzero : b = 0
    · rw [if_pos hzero, hnptr]
      rfl
    · by_cases hdot : b = dot
      · rw [if_neg hzero, if_pos hdot, hnptr]
        rfl
      · rw [if_neg hzero, if_neg hdot, hput]
        rfl

/-- The labels are written if they fit, each behind its length. -/
theorem encodeLabels_eq (pre : List UInt8) (x : UInt8) (lab rest : List UInt8) (hhost : 0 ∉ host) :
    encodeLabels (pre ++ ([x] ++ (lab ++ rest))) pre.length (pre.length + 1 + lab.length) (.ofNat lab.length)
        (host ++ [0]) =
      if host.length ≤ rest.length then
        .ok (pre ++ (((host.splitOnPPrepend (· == dot) lab.reverse).flatMap fun label =>
          UInt8.ofNat label.length :: label) ++ rest.drop host.length),
          pre.length + 1 + lab.length + host.length)
      else .error .bounds := by
  induction host generalizing pre x lab rest with
  | nil =>
    rw [List.nil_append, encodeLabels, if_pos rfl, write_byte]
    simp [bind, Except.bind]
  | cons b host ih =>
    obtain ⟨hzero, hhost⟩ := not_or.mp (fun h => hhost (List.mem_cons.mpr h))
    change encodeLabels _ _ _ _ (b :: (host ++ [0])) = _
    rw [encodeLabels, if_neg (Ne.symm hzero)]
    by_cases hdot : b = dot
    · rw [if_pos hdot, write_byte, List.splitOnPPrepend_cons_pos (by simpa using hdot)]
      cases rest with
      | nil =>
        rw [if_neg (by simp)]
        refine encodeLabels_outside ?_ (Nat.lt_succ_self _) host
        simp only [List.length_append, List.length_singleton, List.length_nil]
        omega
      | cons y rest =>
        have hrest := ih (pre ++ (.ofNat lab.length :: lab)) y [] rest hhost
        have hlen : (pre ++ (UInt8.ofNat lab.length :: lab)).length = pre.length + 1 + lab.length := by
          simp only [List.length_append, List.length_cons]
          omega
        rw [hlen] at hrest
        simp only [bind, Except.bind]
        have hshape : pre ++ ([UInt8.ofNat lab.length] ++ (lab ++ y :: rest)) =
            pre ++ (UInt8.ofNat lab.length :: lab) ++ ([y] ++ ([] ++ rest)) := by simp
        rw [hshape]
        refine hrest.trans ?_
        simp only [List.length_cons, Nat.add_le_add_iff_right, List.drop_succ_cons, List.length_nil]
        split
        · simp [Nat.add_comm, Nat.add_left_comm]
        · rfl
    · rw [if_neg hdot, List.splitOnPPrepend_cons_neg (by simpa using hdot)]
      cases rest with
      | nil =>
        rw [if_neg (by simp), write_outside]
        · rfl
        · simp only [List.length_append, List.length_singleton, List.length_nil]
          omega
      | cons y rest =>
        have hlen : (pre ++ ([x] ++ lab)).length = pre.length + 1 + lab.length := by
          simp only [List.length_append, List.length_singleton]
          omega
        have hwrite := write_byte (pre ++ ([x] ++ lab)) rest y b
        rw [hlen] at hwrite
        have hshape : pre ++ ([x] ++ (lab ++ y :: rest)) = pre ++ ([x] ++ lab) ++ ([y] ++ rest) := by simp
        have hshape' : pre ++ ([x] ++ lab) ++ ([b] ++ rest) = pre ++ ([x] ++ (lab ++ [b] ++ rest)) := by simp
        have hrest := ih pre x (lab ++ [b]) rest hhost
        rw [hshape, hwrite, hshape']
        simp only [bind, Except.bind]
        rw [List.length_append, List.length_singleton, UInt8.ofNat_add] at hrest
        refine hrest.trans ?_
        simp only [List.length_cons, Nat.add_le_add_iff_right, List.drop_succ_cons, List.reverse_append,
          List.reverse_singleton, List.singleton_append]
        split
        · simp [Nat.add_comm, Nat.add_left_comm]
        · rfl

end loops

/-! ### The query for a name -/

section query

variable {p : List UInt8} {name : CString} {s s' : Resolver} {c : Call}

/-- The header is written, and 260 bytes are left. -/
theorem write_queryHdr (hp : p.length = querySize) (id : UInt8) : ∃ x rest, rest.length = 259 ∧
    write p 0 (queryHdr id) = .ok (queryHdr id ++ ([x] ++ ([] ++ rest))) := by
  rw [show querySize = 272 from rfl] at hp
  obtain ⟨x, rest, hrest⟩ : ∃ x rest, p.drop SIZEOF_DNS_HDR = x :: rest :=
    List.exists_cons_of_length_pos (by simp [hp, SIZEOF_DNS_HDR])
  refine ⟨x, rest, ?_, ?_⟩
  · have hdrop := congrArg List.length hrest
    simp only [List.length_drop, List.length_cons, hp, SIZEOF_DNS_HDR] at hdrop
    omega
  · have htake : (queryHdr id).length = (p.take SIZEOF_DNS_HDR).length := by
      simp [hp, SIZEOF_DNS_HDR, queryHdr]
    have hwrite := write_append [] (x :: rest) htake
    rw [← hrest, List.take_append_drop, hrest] at hwrite
    exact hwrite

/-- The type and the class are written if they fit, and are the end of the query. -/
theorem write_queryType (pre rest : List UInt8) :
    (do
      let p ← write (pre ++ rest) pre.length queryType
      .ok (p.take (pre.length + SIZEOF_DNS_QUERY)) : Except Fault (List UInt8)) =
      if SIZEOF_DNS_QUERY ≤ rest.length then .ok (pre ++ queryType) else .error .bounds := by
  by_cases hfits : SIZEOF_DNS_QUERY ≤ rest.length
  · rw [if_pos hfits]
    have htype : queryType.length = (rest.take SIZEOF_DNS_QUERY).length := by
      rw [List.length_take, min_eq_left hfits]
      rfl
    have hwrite := write_append pre (rest.drop SIZEOF_DNS_QUERY) htype
    rw [List.take_append_drop] at hwrite
    rw [hwrite]
    change Except.ok _ = Except.ok _
    have htake : (pre ++ queryType).length = pre.length + SIZEOF_DNS_QUERY := List.length_append
    rw [← List.append_assoc, ← htake, List.take_left]
  · rw [if_neg hfits, write_outside]
    · rfl
    · rw [List.length_append, show queryType.length = SIZEOF_DNS_QUERY from rfl]
      omega

/-- The question is in bounds if the encoding of the name is no longer than `DNS_MAX_NAME_LENGTH`. -/
theorem dnsSendQuery_eq (hp : p.length = querySize) (hname : name.1.length < DNS_MAX_NAME_LENGTH) (id : UInt8) :
    dnsSendQuery p name id =
      if name.1.length + 2 ≤ DNS_MAX_NAME_LENGTH then
        .ok (queryHdr id ++ encodeName (name.1.splitOn dot) ++ queryType)
      else .error .bounds := by
  rw [show DNS_MAX_NAME_LENGTH = 256 from rfl] at hname ⊢
  obtain ⟨x, rest, hlen, hhdr⟩ := write_queryHdr hp id
  obtain ⟨enc, henc⟩ : ∃ enc, enc = (name.1.splitOn dot).flatMap fun label => UInt8.ofNat label.length :: label :=
    ⟨_, rfl⟩
  have hencLen : enc.length = name.1.length + 1 := by
    have h := length_encodeName name.1
    rw [encodeName, ← henc, List.length_append] at h
    exact Nat.succ.inj h
  have hloop := encodeLabels_eq (queryHdr id) x [] rest name.2
  rw [if_pos (by omega), List.reverse_nil, List.splitOnPPrepend_nil_right, ← List.splitOn_eq_splitOnP,
    ← henc] at hloop
  -- the root
  obtain ⟨y, rest₂, hrest₂⟩ : ∃ y rest₂, rest.drop name.1.length = y :: rest₂ :=
    List.exists_cons_of_length_pos (by simp only [List.length_drop]; omega)
  have hlen₂ : rest₂.length + 1 = 259 - name.1.length := by
    have hdrop := congrArg List.length hrest₂
    simp only [List.length_drop, List.length_cons, hlen] at hdrop
    exact hdrop.symm
  have hroot := write_byte (queryHdr id ++ enc) rest₂ y 0
  have hquery : (queryHdr id ++ enc).length = SIZEOF_DNS_HDR + 1 + name.1.length := by
    rw [List.length_append, hencLen, Nat.add_comm name.1.length, ← Nat.add_assoc]
    rfl
  rw [hquery, List.append_assoc] at hroot
  have hpre : (queryHdr id ++ enc ++ [0]).length = SIZEOF_DNS_HDR + 1 + name.1.length + 1 := by
    rw [List.length_append, hquery]
    rfl
  have hrun : dnsSendQuery p name id = (do
      let p ← write (queryHdr id ++ enc ++ [0] ++ rest₂) (queryHdr id ++ enc ++ [0]).length queryType
      .ok (p.take ((queryHdr id ++ enc ++ [0]).length + SIZEOF_DNS_QUERY))) := by
    rw [dnsSendQuery, hhdr, hpre]
    change (do
      let (p, query) ← encodeLabels (queryHdr id ++ ([x] ++ ([] ++ rest))) (queryHdr id).length
        ((queryHdr id).length + 1 + ([] : List UInt8).length) (.ofNat ([] : List UInt8).length) (name.1 ++ [0])
      let p ← write p query [0]
      let p ← write p (query + 1) queryType
      .ok (p.take (query + 1 + SIZEOF_DNS_QUERY))) = _
    rw [hloop, hrest₂]
    change (do
      let p ← write (queryHdr id ++ (enc ++ ([y] ++ rest₂))) (SIZEOF_DNS_HDR + 1 + name.1.length) [0]
      let p ← write p (SIZEOF_DNS_HDR + 1 + name.1.length + 1) queryType
      .ok (p.take (SIZEOF_DNS_HDR + 1 + name.1.length + 1 + SIZEOF_DNS_QUERY))) = _
    rw [hroot, List.append_assoc (queryHdr id ++ enc)]
    rfl
  rw [hrun, write_queryType]
  have hfits : SIZEOF_DNS_QUERY ≤ rest₂.length ↔ name.1.length + 2 ≤ 256 := by
    rw [show SIZEOF_DNS_QUERY = 4 from rfl]
    omega
  simp only [hfits, encodeName, ← henc, List.append_assoc]

theorem Labels.question {name : List UInt8} {labels : List (List UInt8)} (h : Labels name labels)
    (rest : List UInt8) : Question name (encodeName labels ++ rest) rest :=
  ⟨labels, fun label hlabel => ⟨h.pos label hlabel, (h.short label hlabel).trans_lt (by decide)⟩, rfl, h.name⟩

theorem Spells.compares {name bytes rest : List UInt8} (h : Spells name bytes rest) (hname : name ≠ []) :
    Matches (name ++ [0]) bytes := by
  induction h with
  | root => exact absurd rfl hname
  | last hn hpos hlabel => exact .last hn hlabel
  | label hn hpos hlabel hm h ih =>
    rw [List.append_assoc]
    exact .label hn hlabel hm (ih (h.ne_nil hm))

theorem Labels.sent {name : List UInt8} {labels : List (List UInt8)} (h : Labels name labels) (hname : name ≠ [])
    (id : UInt8) : Sent name id (encodeName labels) (queryHdr id ++ encodeName labels ++ queryType) where
  packet := rfl
  parses := dnsParseName_of_skips ((h.question queryType).spells.skips hname)
  compares := dnsCompareName_of_matches ((h.question queryType).spells.compares hname)

theorem exists_encoding {name : List UInt8} (hname : name ≠ []) :
    (∃ enc, Encoding name enc) ↔
      (∀ label ∈ name.splitOn dot, label ≠ [] ∧ label.length ≤ 63) ∧ name.length + 2 ≤ 255 := by
  rw [← exists_labels hname]
  constructor
  · rintro ⟨enc, labels, h, rfl, hlen⟩
    rw [h.eq_splitOn hname, length_encodeName] at hlen
    exact ⟨⟨labels, h⟩, hlen⟩
  · rintro ⟨⟨labels, h⟩, hlen⟩
    refine ⟨_, labels, h, rfl, ?_⟩
    rwa [h.eq_splitOn hname, length_encodeName]

/-- A name for the network is not rejected. -/
theorem Asks.not_rejected (hask : Asks s c) : dnsGethostbyname s c ≠ .ok (s', .arg) := by
  intro h
  rw [dnsGethostbyname, if_neg (not_or.mpr ⟨hask.pos, Nat.not_le.mpr hask.short⟩)] at h
  dsimp only at h
  rw [if_pos hask.noAddr, if_neg (not_not.mpr hask.unknown), dnsEnqueue] at h
  split at h
  · cases h
  · obtain ⟨s₁, -, h⟩ := bind_ok h
    cases h

theorem lawful_iff (hask : Asks s c) (hp : p.length = querySize) (id : UInt8) :
    Lawful s c p id ↔ (∀ label ∈ c.hostname.1.splitOn dot, label ≠ [] ∧ label.length ≤ 63) ∧
      c.hostname.1.length + 2 ≤ 255 := by
  constructor
  · intro h
    by_contra hnot
    rw [← exists_encoding hask.pos] at hnot
    exact hask.not_rejected (h.rejected (not_exists.mp hnot))
  · intro h
    have hquery := dnsSendQuery_eq hp hask.short id
    rw [if_pos (h.2.trans (by decide))] at hquery
    obtain ⟨enc, henc⟩ := (exists_encoding hask.pos).mpr h
    refine ⟨?_, ?_, fun hnone => absurd henc (hnone enc)⟩
    · rw [take_hostname hask, hquery]
      exact fun h => nomatch h
    · rintro _ ⟨labels, hlabels, rfl, -⟩
      refine ⟨_, ?_, hlabels.sent hask.pos id⟩
      rw [take_hostname hask, hquery, ← hlabels.eq_splitOn hask.pos]

/-- For a name that is asked for on the network: all writes are inside the pbuf if and only if it has at most 254
characters; then the query for it is sent if and only if its labels have 1 to 63 bytes; and such names are told from
others if and only if it has no more than 253. -/
theorem dns_query (hask : Asks s c) (hp : p.length = querySize) (id : UInt8) :
    (dnsSendQuery p c.hostname id ≠ .error .bounds ↔ c.hostname.1.length + 2 ≤ DNS_MAX_NAME_LENGTH) ∧
    ((∃ labels packet, Labels c.hostname.1 labels ∧ dnsSendQuery p c.hostname id = .ok packet ∧
        Sent c.hostname.1 id (encodeName labels) packet) ↔
      (∀ label ∈ c.hostname.1.splitOn dot, label ≠ [] ∧ label.length ≤ 63) ∧
        c.hostname.1.length + 2 ≤ DNS_MAX_NAME_LENGTH) ∧
    (Lawful s c p id ↔ (∀ label ∈ c.hostname.1.splitOn dot, label ≠ [] ∧ label.length ≤ 63) ∧
      c.hostname.1.length + 2 ≤ 255) := by
  refine ⟨?_, ?_, lawful_iff hask hp id⟩
  · rw [dnsSendQuery_eq hp hask.short]
    split
    · next hfits => exact iff_of_true (fun h => nomatch h) hfits
    · next hfits => exact iff_of_false (not_not.mpr rfl) hfits
  · rw [dnsSendQuery_eq hp hask.short, ← exists_labels hask.pos]
    constructor
    · rintro ⟨labels, packet, hlabels, hpacket, -⟩
      refine ⟨⟨labels, hlabels⟩, ?_⟩
      by_contra hfits
      rw [if_neg hfits] at hpacket
      cases hpacket
    · rintro ⟨⟨labels, hlabels⟩, hfits⟩
      refine ⟨labels, _, hlabels, ?_, hlabels.sent hask.pos id⟩
      rw [if_pos hfits, ← hlabels.eq_splitOn hask.pos]

end query

theorem asks_of_empty {c : Call} (hpos : c.hostname.1 ≠ []) (hshort : c.hostname.1.length < DNS_MAX_NAME_LENGTH)
    (hnum : ipaddrAddr c.hostname.1 = IPADDR_NONE) : Asks emptyResolver c :=
  ⟨hpos, hshort, hnum, rfl⟩

theorem dns_query_nameA : Lawful emptyResolver ⟨nameA, none, 0⟩ (List.replicate querySize 0) 0 :=
  (dns_query (asks_of_empty (by decide) (by decide) (by decide)) (List.length_replicate ..) 0).2.2.mpr
    ⟨by decide, by decide⟩

/-- 255 letters -/
def longName : CString := ⟨List.replicate 255 0x61, fun h => absurd (List.eq_of_mem_replicate h) (by decide)⟩

theorem length_longName : longName.1.length = 255 := List.length_replicate ..

/-- "a..b" -/
def dottedName : CString := ⟨[0x61, dot, dot, 0x62], by decide⟩

set_option maxRecDepth 20000 in
/-- The query for the longest name is written behind the end of the pbuf, and a name with an empty label is not
rejected. -/
theorem query_unlawful :
    (∃ c, Asks emptyResolver c ∧
      dnsSendQuery (List.replicate querySize 0) c.hostname 0 = .error .bounds) ∧
    ∃ c, Asks emptyResolver c ∧ (∀ enc, ¬ Encoding c.hostname.1 enc) ∧
      ∃ s, dnsGethostbyname emptyResolver c = .ok (s, .inprogress) := by
  have hshort : longName.1.length < DNS_MAX_NAME_LENGTH := by
    rw [length_longName]
    decide
  refine ⟨⟨⟨longName, none, 0⟩, asks_of_empty (by decide) hshort (by decide), ?_⟩,
    ⟨⟨dottedName, none, 0⟩, asks_of_empty (by decide) (by decide) (by decide), ?_, _, rfl⟩⟩
  · rw [dnsSendQuery_eq (List.length_replicate ..) hshort, length_longName]
    exact if_neg (by decide)
  · intro enc henc
    obtain ⟨hlabels, -⟩ := (exists_encoding (by decide)).mp ⟨enc, henc⟩
    exact (hlabels [] (by decide)).1 rfl

end QuietLwip.Dns
