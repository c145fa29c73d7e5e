import Mathlib.Data.List.TakeWhile
import QuietLwip.Apps.Socks

/-!
# Requests and replies of the SOCKS proxy

What a request says and what is handed to `connect` or to `getaddrinfo` for it, and the two functions that
write a reply of ten bytes. The host is little-endian.
-/

namespace QuietLwip.Apps

open Chunked Relay

def SOCKS_CONN_SUCCEEDED : UInt8 := 0
def SOCKS_CONN_FAILED : UInt8 := 1

/-! ### Words in memory -/

/-- The word in four bytes of memory -/
def load32 (a b c d : UInt8) : ℕ := a.toNat + b.toNat * 2 ^ 8 + c.toNat * 2 ^ 16 + d.toNat * 2 ^ 24

/-- The word in two bytes of memory -/
def load16 (a b : UInt8) : ℕ := a.toNat + b.toNat * 2 ^ 8

/-- The bytes of a word in memory -/
def store32 (x : ℕ) : List UInt8 :=
  [.ofNat x, .ofNat (x / 2 ^ 8), .ofNat (x / 2 ^ 16), .ofNat (x / 2 ^ 24)]

/-- The bytes of a word in memory -/
def store16 (x : ℕ) : List UInt8 := [.ofNat x, .ofNat (x / 2 ^ 8)]

/-- `htonl` -/
def htonl (x : ℕ) : ℕ :=
  x % 256 * 2 ^ 24 + x / 2 ^ 8 % 256 * 2 ^ 16 + x / 2 ^ 16 % 256 * 2 ^ 8 + x / 2 ^ 24 % 256

/-- `htons` -/
def htons (x : ℕ) : ℕ := x % 256 * 2 ^ 8 + x / 2 ^ 8 % 256

/-- An assignment to bytes of the buffer from `pos` on -/
def put (pos : ℕ) (bs : List UInt8) (buf : Buf) : Buf := fun i =>
  if i < pos then buf i else (bs[i - pos]?).getD (buf i)

/-! ### Replies -/

/-- `sin_addr` and `sin_port` of a `sockaddr_in`, byte by byte as they are in memory: both are in network
order. -/
structure SockaddrIn where
  a : UInt8
  b : UInt8
  c : UInt8
  d : UInt8
  hi : UInt8
  lo : UInt8

/-- What a reply function returns, what it gives to `lwip_write`, and the buffer. -/
structure Replied where
  ok : Bool
  sent : Option (List UInt8)
  buf : Buf

/-- `lwip_write(client_fd, buf, 10)` -/
def sendReply (nwritten : ℤ) (buf : Buf) : Replied :=
  ⟨10 ≤ nwritten, some ((List.range 10).map buf), buf⟩

/-- `socks_request_reply`; the argument is what `getsockname` fills in, if it succeeds. -/
def socksRequestReply (getsockname : Option SockaddrIn) (nwritten : ℤ) (buf : Buf) : Replied :=
  match getsockname with
  | none => ⟨false, none, buf⟩
  | some addr =>
    let buf := put 0 [SOCKS_VERSION, SOCKS_CONN_SUCCEEDED, 0, SOCKS_ADDR_IPV4] buf
    -- `buf32[1]` and `buf16[4]`
    let buf := put (4 * 1) (store32 (htonl (load32 addr.a addr.b addr.c addr.d))) buf
    let buf := put (2 * 4) (store16 (htons (load16 addr.hi addr.lo))) buf
    sendReply nwritten buf

/-- `socks_request_reply_failed` -/
def socksRequestReplyFailed (nwritten : ℤ) (buf : Buf) : Replied :=
  let buf := put 0 [SOCKS_VERSION, SOCKS_CONN_FAILED, 0, SOCKS_ADDR_IPV4] buf
  -- `buf32[1]` and `buf16[5]`
  let buf := put (4 * 1) (store32 0) buf
  let buf := put (2 * 5) (store16 0) buf
  sendReply nwritten buf

/-! ### The protocol -/

/-- The destination of a CONNECT request -/
inductive Request where
  | ipv4 (a b c d : UInt8) (hi lo : UInt8)
  | domainname (name : List UInt8) (hi lo : UInt8)

namespace Request

def port : Request → ℕ
  | ipv4 _ _ _ _ hi lo => hi.toNat * 256 + lo.toNat
  | domainname _ hi lo => hi.toNat * 256 + lo.toNat

/-- A name has up to 255 bytes and no NUL. -/
def WellFormed : Request → Prop
  | ipv4 .. => True
  | domainname name _ _ => 1 ≤ name.length ∧ name.length ≤ 255 ∧ 0 ∉ name

/-- Version, command, the reserved byte, and the address with its type -/
def encode (rsv : UInt8) : Request → List UInt8
  | ipv4 a b c d hi lo => [5, 1, rsv, 1] ++ [a, b, c, d, hi, lo]
  | domainname name hi lo => [5, 1, rsv, 3] ++ ([.ofNat name.length] ++ (name ++ [hi, lo]))

end Request

/-- What is handed on is the address and the port of the request in network order, or the name and the port
as a decimal number. -/
def Destination.Denotes : Destination → Request → Prop
  | .ipv4 addr port, .ipv4 a b c d hi lo => addr = [a, b, c, d] ∧ port = [hi, lo]
  | .domainname name portS, req@(.domainname name' _ _) =>
    name = name' ∧ Nat.ofDigitChars 10 portS 0 = req.port
  | _, _ => False

/-- An address, or a name with a port of at most four digits -/
def Request.Fits : Request → Prop
  | .ipv4 .. => True
  | req@(.domainname ..) => req.port < 10000

/-- A reply: version, status, 0, the type of the address, the address and the port -/
def reply (status : UInt8) (addr : SockaddrIn) : List UInt8 :=
  [5, status, 0, 1, addr.a, addr.b, addr.c, addr.d, addr.hi, addr.lo]

/-- The address and the port of a failure -/
def noAddr : SockaddrIn := ⟨0, 0, 0, 0, 0, 0⟩

/-- A reply function writes each of the bytes that it sends: none is left from what was in the buffer. -/
def WritesAll (f : Buf → Replied) : Prop := ∀ buf buf', (f buf).sent = (f buf').sent

/-! ### Requests -/

variable {ι : Type} {out : Outside ι} {buf : Buf} {l s : List UInt8}

theorem put_of_lt {pos i : ℕ} {bs : List UInt8} (h : i < bs.length) :
    put pos bs buf (pos + i) = bs[i] := by
  rw [put, if_neg (by omega), Nat.add_sub_cancel_left, List.getElem?_eq_getElem h, Option.getD_some]

theorem range_map_overwrite (buf : Buf) (l : List UInt8) {n : ℕ} (h : n ≤ l.length) :
    (List.range n).map (overwrite buf l) = l.take n := by
  refine List.ext_getElem (by simpa using h) fun i hi _ => ?_
  rw [List.length_map, List.length_range] at hi
  rw [List.getElem_map, List.getElem_range, List.getElem_take]
  exact overwrite_of_lt (hi.trans_le h)

/-- The port of a name is cut after four digits. -/
theorem portS_iff (hi lo : UInt8) : Nat.ofDigitChars 10 (portS hi lo) 0 = hi.toNat * 256 + lo.toNat ↔
    hi.toNat * 256 + lo.toNat < 10000 := by
  have hlt : hi.toNat * 256 + lo.toNat < 65536 := by
    have := hi.toNat_lt
    have := lo.toNat_lt
    omega
  rw [portS]
  generalize hi.toNat * 256 + lo.toNat = port at hlt ⊢
  by_cases hshort : port < 10000
  · have hlen : (Nat.toDigits 10 port).length ≤ 4 :=
      (Nat.length_toDigits_le_iff (by decide) (by decide)).mpr hshort
    rw [List.take_of_length_le hlen, Nat.ofDigitChars_ten_toDigits]
    exact iff_of_true rfl hshort
  · have hlen : (Nat.toDigits 10 (port / 10)).length = 4 := by
      have hle : (Nat.toDigits 10 (port / 10)).length ≤ 4 :=
        (Nat.length_toDigits_le_iff (by decide) (by decide)).mpr (by omega)
      have hge : ¬ (Nat.toDigits 10 (port / 10)).length ≤ 3 := fun h => by
        have hsmall := (Nat.length_toDigits_le_iff (by decide) (by decide)).mp h
        omega
      omega
    rw [Nat.toDigits_of_base_le (by decide) (by omega), List.take_left' hlen, Nat.ofDigitChars_ten_toDigits]
    exact iff_of_false (by omega) hshort

theorem takeWhile_of_zero_notMem {name : List UInt8} (h : 0 ∉ name) : name.takeWhile (· ≠ 0) = name :=
  List.takeWhile_eq_self_iff.mpr fun _ hx => decide_eq_true fun heq => h (heq ▸ hx)

theorem socksRequestConnectIpv4_run (out : Outside ι) (buf : Buf) (a b c d hi lo : UInt8)
    (s : List UInt8) :
    ((socksRequestConnectIpv4 out buf).run ([a, b, c, d, hi, lo] ++ s) []).1 =
      if out.socket then .requested (.ipv4 [a, b, c, d] [hi, lo]) (out.connect [a, b, c, d] [hi, lo])
      else .rejected := by
  rw [socksRequestConnectIpv4]
  cases out.socket with
  | false => rfl
  | true =>
    rw [if_neg (by decide), if_pos rfl, lwipRead_bind,
      Reader.run_whole (n := 6) (l := [a, b, c, d, hi, lo]) rfl]
    rfl

/-- The name up to its first NUL, and at most four digits of the port -/
theorem socksRequestConnectDomainname_run (out : Outside ι) (buf : Buf) {name : List UInt8}
    (hlen : name.length ≤ 255) (hi lo : UInt8) (s : List UInt8) :
    ∃ connected, ((socksRequestConnectDomainname out buf).run
      ([.ofNat name.length] ++ (name ++ [hi, lo]) ++ s) []).1 =
        .requested (.domainname (name.takeWhile (· ≠ 0)) (portS hi lo)) connected := by
  have hbyte : (UInt8.ofNat name.length).toNat = name.length := by
    rw [UInt8.toNat_ofNat']
    omega
  have hfirst : overwrite buf [.ofNat name.length] 0 = .ofNat name.length := rfl
  rw [socksRequestConnectDomainname, lwipRead_bind, List.append_assoc,
    Reader.run_whole (n := 1) (l := [UInt8.ofNat name.length]) rfl]
  dsimp only
  rw [if_neg (by simp), hfirst, hbyte, lwipRead_bind,
    Reader.run_whole (n := name.length + 2) (l := name ++ [hi, lo]) (by simp)]
  generalize overwrite buf [.ofNat name.length] = buf
  have hname : (List.range name.length).map (overwrite buf (name ++ [hi, lo])) = name := by
    rw [range_map_overwrite buf _ (by simp), List.take_left]
  have hhi : overwrite buf (name ++ [hi, lo]) name.length = hi := by
    rw [overwrite_of_lt (by simp), List.getElem_append_right (le_refl _)]
    simp
  have hlo : overwrite buf (name ++ [hi, lo]) (name.length + 1) = lo := by
    rw [overwrite_of_lt (by simp), List.getElem_append_right (by omega)]
    simp
  dsimp only
  rw [if_neg (by simp), hname, hhi, hlo]
  cases out.getaddrinfo (name.takeWhile (· ≠ 0)) (portS hi lo) with
  | none => exact ⟨false, rfl⟩
  | some results => exact ⟨results.any out.reach, rfl⟩

/-- Behind a CONNECT request of four bytes -/
theorem socksRequest_run (out : Outside ι) (buf : Buf) (rsv addrType : UInt8) (s : List UInt8) :
    ((socksRequest out buf).run ([5, 1, rsv, addrType] ++ s) []).1 =
      if addrType = SOCKS_ADDR_IPV4 then
        ((socksRequestConnectIpv4 out (overwrite buf [5, 1, rsv, addrType])).run s []).1
      else if addrType = SOCKS_ADDR_DOMAINNAME then
        ((socksRequestConnectDomainname out (overwrite buf [5, 1, rsv, addrType])).run s []).1
      else .rejected := by
  have h0 : overwrite buf [5, 1, rsv, addrType] 0 = SOCKS_VERSION := rfl
  have h1 : overwrite buf [5, 1, rsv, addrType] 1 = SOCKS_CMD_CONNECT := rfl
  have h3 : overwrite buf [5, 1, rsv, addrType] 3 = addrType := rfl
  rw [socksRequest, lwipRead_bind, Reader.run_whole (n := 4) (l := [5, 1, rsv, addrType]) rfl]
  dsimp only
  rw [if_neg (by simp), h0, if_neg (not_not.mpr rfl), h1, if_neg (not_not.mpr rfl), h3]
  split
  · rfl
  · split <;> rfl

/-- What is handed on for a request that is delivered whole -/
theorem request_denotes (out : Outside ι) (buf : Buf) (rsv : UInt8) (s : List UInt8) {req : Request}
    (hreq : req.WellFormed) :
    ((∀ dest connected,
      ((socksRequest out buf).run (req.encode rsv ++ s) []).1 = .requested dest connected →
        dest.Denotes req) ↔ req.Fits) ∧
    (out.socket = true → ∃ dest connected,
      ((socksRequest out buf).run (req.encode rsv ++ s) []).1 = .requested dest connected) := by
  cases req with
  | ipv4 a b c d hi lo =>
    have hrun := socksRequest_run out buf rsv 1 ([a, b, c, d, hi, lo] ++ s)
    rw [if_pos (by decide), socksRequestConnectIpv4_run, ← List.append_assoc] at hrun
    refine ⟨iff_of_true (fun dest connected h => ?_) trivial, fun hsocket => ?_⟩
    · rw [Request.encode, hrun] at h
      split at h
      · cases h
        exact ⟨rfl, rfl⟩
      · cases h
    · rw [if_pos hsocket] at hrun
      exact ⟨_, _, hrun⟩
  | domainname name hi lo =>
    obtain ⟨-, hlen, hnul⟩ := hreq
    have hrun := socksRequest_run out buf rsv 3 ([.ofNat name.length] ++ (name ++ [hi, lo]) ++ s)
    obtain ⟨connected, hname⟩ :=
      socksRequestConnectDomainname_run out (overwrite buf [5, 1, rsv, 3]) hlen hi lo s
    rw [if_neg (by decide), if_pos (by decide), hname, takeWhile_of_zero_notMem hnul,
      ← List.append_assoc] at hrun
    refine ⟨?_, fun _ => ⟨_, _, hrun⟩⟩
    rw [Request.encode, hrun]
    constructor
    · intro h
      exact (portS_iff hi lo).mp (h _ _ rfl).2
    · rintro h dest connected heq
      cases heq
      exact ⟨rfl, (portS_iff hi lo).mpr h⟩

/-! ### Replies -/

theorem load32_bytes (a b c d : UInt8) : store32 (htonl (load32 a b c d)) = [d, c, b, a] := by
  have ha := a.toNat_lt
  have hb := b.toNat_lt
  have hc := c.toNat_lt
  have hd := d.toNat_lt
  have hload : htonl (load32 a b c d) =
      a.toNat * 2 ^ 24 + b.toNat * 2 ^ 16 + c.toNat * 2 ^ 8 + d.toNat := by
    unfold htonl load32
    omega
  have hbyte : ∀ (x : ℕ) (y : UInt8), x % 256 = y.toNat → UInt8.ofNat x = y := fun x y h =>
    UInt8.toNat_inj.mp (by rw [UInt8.toNat_ofNat']; exact h)
  rw [hload, store32,
    hbyte _ d (by omega), hbyte _ c (by omega), hbyte _ b (by omega), hbyte _ a (by omega)]

theorem load16_bytes (hi lo : UInt8) : store16 (htons (load16 hi lo)) = [lo, hi] := by
  have hhi := hi.toNat_lt
  have hlo := lo.toNat_lt
  have hload : htons (load16 hi lo) = hi.toNat * 2 ^ 8 + lo.toNat := by
    unfold htons load16
    omega
  have hbyte : ∀ (x : ℕ) (y : UInt8), x % 256 = y.toNat → UInt8.ofNat x = y := fun x y h =>
    UInt8.toNat_inj.mp (by rw [UInt8.toNat_ofNat']; exact h)
  rw [hload, store16, hbyte _ lo (by omega), hbyte _ hi (by omega)]

/-- The bytes of `sin_addr` and of `sin_port` are reversed. -/
theorem socksRequestReply_sent (addr : SockaddrIn) (nwritten : ℤ) (buf : Buf) :
    (socksRequestReply (some addr) nwritten buf).sent =
      some (reply SOCKS_CONN_SUCCEEDED ⟨addr.d, addr.c, addr.b, addr.a, addr.lo, addr.hi⟩) := by
  rw [socksRequestReply, load32_bytes, load16_bytes]
  rfl

/-- The bytes of the port are those of the buffer. -/
theorem socksRequestReplyFailed_sent (nwritten : ℤ) (buf : Buf) :
    (socksRequestReplyFailed nwritten buf).sent =
      some (reply SOCKS_CONN_FAILED ⟨0, 0, 0, 0, buf 8, buf 9⟩) := rfl

theorem reply_inj {status : UInt8} {addr addr' : SockaddrIn} :
    reply status addr = reply status addr' ↔ addr = addr' := by
  refine ⟨fun h => ?_, fun h => h ▸ rfl⟩
  obtain ⟨a, b, c, d, hi, lo⟩ := addr
  cases addr'
  simpa [reply] using h

theorem socksRequestReply_iff (addr : SockaddrIn) (nwritten : ℤ) (buf : Buf) :
    (socksRequestReply (some addr) nwritten buf).sent = some (reply SOCKS_CONN_SUCCEEDED addr) ↔
      addr.a = addr.d ∧ addr.b = addr.c ∧ addr.hi = addr.lo := by
  rw [socksRequestReply_sent, Option.some_inj, reply_inj]
  obtain ⟨a, b, c, d, hi, lo⟩ := addr
  rw [SockaddrIn.mk.injEq]
  constructor
  · rintro ⟨had, hbc, -, -, hport, -⟩
    exact ⟨had.symm, hbc.symm, hport.symm⟩
  · rintro ⟨had, hbc, hport⟩
    exact ⟨had.symm, hbc.symm, hbc, had, hport.symm, hport⟩

theorem socksRequestReplyFailed_iff (nwritten : ℤ) (buf : Buf) :
    (socksRequestReplyFailed nwritten buf).sent = some (reply SOCKS_CONN_FAILED noAddr) ↔
      buf 8 = 0 ∧ buf 9 = 0 := by
  rw [socksRequestReplyFailed_sent, Option.some_inj, reply_inj, noAddr, SockaddrIn.mk.injEq]
  exact ⟨fun h => ⟨h.2.2.2.2.1, h.2.2.2.2.2⟩, fun h => ⟨rfl, rfl, rfl, rfl, h.1, h.2⟩⟩

theorem socksRequestReply_writesAll (addr : SockaddrIn) (nwritten : ℤ) :
    WritesAll (socksRequestReply (some addr) nwritten) := fun buf buf' => by
  rw [socksRequestReply_sent, socksRequestReply_sent]

theorem socksRequestReplyFailed_not_writesAll (nwritten : ℤ) :
    ¬ WritesAll (socksRequestReplyFailed nwritten) := by
  intro h
  have hstale := h (fun _ => 0) fun _ => 1
  rw [socksRequestReplyFailed_sent, socksRequestReplyFailed_sent, Option.some_inj, reply_inj,
    SockaddrIn.mk.injEq] at hstale
  exact absurd hstale.2.2.2.2.1 (by decide)

/-- When requests and replies are those of the protocol. The destination of a name is right up to port 9999.
The reply of a success reverses the address and the port, and that of a failure has the port that is in the
buffer, which it never writes. -/
theorem socks_codec_iff (out : Outside ι) (nwritten : ℤ) (buf : Buf) :
    (∀ (rsv : UInt8) (s : List UInt8) (req : Request), req.WellFormed →
      ((∀ dest connected,
        ((socksRequest out buf).run (req.encode rsv ++ s) []).1 = .requested dest connected →
          dest.Denotes req) ↔ req.Fits) ∧
      (out.socket = true → ∃ dest connected,
        ((socksRequest out buf).run (req.encode rsv ++ s) []).1 = .requested dest connected)) ∧
    (∀ addr : SockaddrIn,
      ((socksRequestReply (some addr) nwritten buf).sent = some (reply SOCKS_CONN_SUCCEEDED addr) ↔
        addr.a = addr.d ∧ addr.b = addr.c ∧ addr.hi = addr.lo) ∧
      WritesAll (socksRequestReply (some addr) nwritten)) ∧
    ((socksRequestReplyFailed nwritten buf).sent = some (reply SOCKS_CONN_FAILED noAddr) ↔
      buf 8 = 0 ∧ buf 9 = 0) ∧
    ¬ WritesAll (socksRequestReplyFailed nwritten) :=
  ⟨fun rsv s _ hreq => request_denotes out buf rsv s hreq,
    fun addr => ⟨socksRequestReply_iff addr nwritten buf, socksRequestReply_writesAll addr nwritten⟩,
    socksRequestReplyFailed_iff nwritten buf, socksRequestReplyFailed_not_writesAll nwritten⟩

/-- A request for the name `a`, port 10000, is taken for port 1000; a proxy at 10.0.0.1, port 80, replies
with 1.0.0.10, port 20480; and a failure is reported with the bytes of an earlier field. -/
theorem socks_codec_wrong :
    (∃ connected, ((socksRequest reachable fun _ => 0).run
      ((Request.domainname [97] 39 16).encode 0) []).1 =
        .requested (.domainname [97] ['1', '0', '0', '0']) connected) ∧
    (socksRequestReply (some ⟨10, 0, 0, 1, 0, 80⟩) 10 fun _ => 0).sent =
      some [5, 0, 0, 1, 1, 0, 0, 10, 80, 0] ∧
    (socksRequestReplyFailed 10 fun _ => 7).sent = some [5, 1, 0, 1, 0, 0, 0, 0, 7, 7] ∧
    ¬ ((∀ (buf : Buf) (s : List UInt8) (req : Request), req.WellFormed → ∃ dest connected,
        ((socksRequest reachable buf).run (req.encode 0 ++ s) []).1 = .requested dest connected ∧
          dest.Denotes req) ∧
      (∀ (addr : SockaddrIn) (buf : Buf),
        (socksRequestReply (some addr) 10 buf).sent = some (reply 0 addr)) ∧
      ∀ buf : Buf, (socksRequestReplyFailed 10 buf).sent = some (reply 1 noAddr)) := by
  have hname : ((socksRequest reachable fun _ => 0).run ((Request.domainname [97] 39 16).encode 0) []).1 =
      .requested (.domainname [97] ['1', '0', '0', '0']) true := by decide +kernel
  have hreply : (socksRequestReply (some ⟨10, 0, 0, 1, 0, 80⟩) 10 fun _ => 0).sent =
      some [5, 0, 0, 1, 1, 0, 0, 10, 80, 0] := by decide
  have hfailed : (socksRequestReplyFailed 10 fun _ => 7).sent =
      some [5, 1, 0, 1, 0, 0, 0, 0, 7, 7] := by decide
  refine ⟨⟨true, hname⟩, hreply, hfailed, fun h => ?_⟩
  have hnone := h.2.2 fun _ => 7
  rw [hfailed] at hnone
  exact absurd hnone (by decide)

end QuietLwip.Apps
