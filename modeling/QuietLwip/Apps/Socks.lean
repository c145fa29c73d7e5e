import QuietLwip.Foundation.Chunked
import QuietLwip.Relay.Threads

/-!
# The handshake of the SOCKS proxy

`socks_auth` and `socks_request` of `proxy_server.c` read the fields of the client's messages with one
call of `lwip_read` each. A handshake is a program over the client's stream; the buffer is the one that
all connections share. What is outside, the sockets towards the remote end and the name resolution, comes
from the environment.
-/

namespace QuietLwip.Apps

open Chunked Relay

def SOCKS_VERSION : UInt8 := 5
def SOCKS_AUTH_NOAUTH : UInt8 := 0
def SOCKS_CMD_CONNECT : UInt8 := 1
def SOCKS_ADDR_IPV4 : UInt8 := 1
def SOCKS_ADDR_DOMAINNAME : UInt8 := 3

/-- The buffer of 512 bytes; the longest field has 257. -/
abbrev Buf := ℕ → UInt8

/-- The destination of a request: the bytes of the address and of the port as they are put into the
`sockaddr_in`, or the name and the decimal port as they are given to `getaddrinfo`. -/
inductive Destination where
  | ipv4 (addr port : List UInt8)
  | domainname (name : List UInt8) (portS : List Char)
  deriving DecidableEq

/-- The world outside of the client's stream, with the addresses that `getaddrinfo` returns. -/
structure Outside (ι : Type) where
  -- `lwip_write` of the reply to the authentication
  nwritten : ℤ
  -- `socket(AF_INET, SOCK_STREAM, 0)` succeeds
  socket : Bool
  connect : List UInt8 → List UInt8 → Bool
  getaddrinfo : List UInt8 → List Char → Option (List ι)
  -- `socket` and `connect` for a result succeed
  reach : ι → Bool

/-- How the handshake ends: rejected before there is a destination, or with the destination that was
requested and whether there is a connection to it. -/
inductive Decision where
  | rejected
  | requested (dest : Destination) (connected : Bool)
  deriving DecidableEq

variable {ι : Type}

/-- `lwip_read(socket_fd, buf, n)`: `nread` and the buffer -/
def lwipRead (buf : Buf) (n : ℕ) : Reader UInt8 (ℕ × Buf) := do
  let chunk ← Reader.ask n
  return (chunk.length, overwrite buf chunk)

/-- `socks_auth`: whether it returns 0 -/
def socksAuth (buf : Buf) : Reader UInt8 (Bool × Buf) := do
  let (nread, buf) ← lwipRead buf 2
  if nread < 2 then return (false, buf)
  else if buf 0 ≠ SOCKS_VERSION then return (false, buf)
  else
    let nmethods := (buf 1).toNat
    let (nread, buf) ← lwipRead buf nmethods
    if nread < nmethods then return (false, buf)
    else return ((List.range nmethods).any fun i => buf i = SOCKS_AUTH_NOAUTH, buf)

/-- `socks_auth_reply` -/
def socksAuthReply (out : Outside ι) (buf : Buf) : Bool × Buf :=
  (out.nwritten = 2, overwrite buf [SOCKS_VERSION, SOCKS_AUTH_NOAUTH])

/-- `socks_request_connect_ipv4` -/
def socksRequestConnectIpv4 (out : Outside ι) (buf : Buf) : Reader UInt8 Decision :=
  if !out.socket then return .rejected
  else do
    let (nread, buf) ← lwipRead buf 6
    if nread < 6 then return .rejected
    else
      let addr := (List.range 4).map buf
      let port := (List.range 2).map fun i => buf (4 + i)
      return .requested (.ipv4 addr port) (out.connect addr port)

/-- `snprintf(port_s, 5, "%d", ntohs(remote_port))`: at most four characters -/
def portS (hi lo : UInt8) : List Char := (Nat.toDigits 10 (hi.toNat * 256 + lo.toNat)).take 4

/-- `socks_request_connect_domainname` -/
def socksRequestConnectDomainname (out : Outside ι) (buf : Buf) : Reader UInt8 Decision := do
  let (nread, buf) ← lwipRead buf 1
  if nread < 1 then return .rejected
  else
    let len := (buf 0).toNat
    let (nread, buf) ← lwipRead buf (len + 2)
    -- the two bytes of the port are not asked for
    if nread < len then return .rejected
    else
      let domainname := ((List.range len).map buf).takeWhile (· ≠ 0)
      let port := portS (buf len) (buf (len + 1))
      match out.getaddrinfo domainname port with
      | none => return .requested (.domainname domainname port) false
      | some results => return .requested (.domainname domainname port) (results.any out.reach)

/-- `socks_request` -/
def socksRequest (out : Outside ι) (buf : Buf) : Reader UInt8 Decision := do
  let (nread, buf) ← lwipRead buf 4
  if nread < 4 then return .rejected
  else if buf 0 ≠ SOCKS_VERSION then return .rejected
  else if buf 1 ≠ SOCKS_CMD_CONNECT then return .rejected
  else if buf 3 = SOCKS_ADDR_IPV4 then socksRequestConnectIpv4 out buf
  else if buf 3 = SOCKS_ADDR_DOMAINNAME then socksRequestConnectDomainname out buf
  else return .rejected

/-- What `main` does with a connection before the relay starts. -/
def handshake (out : Outside ι) (buf : Buf) : Reader UInt8 Decision := do
  let (ok, buf) ← socksAuth buf
  if !ok then return .rejected
  else
    let (ok, buf) := socksAuthReply out buf
    if !ok then return .rejected
    else socksRequest out buf

/-! ### The fields of a stream -/

/-- The field behind a request of four bytes: address and port, or the length of the name and then the
name and the port. -/
def destinationFields (out : Outside ι) (addrType : UInt8) (s : List UInt8) : List ℕ :=
  if addrType = SOCKS_ADDR_IPV4 then if out.socket then [6] else []
  else if addrType = SOCKS_ADDR_DOMAINNAME then
    match s with
    | [] => [1]
    | len :: _ => [1, len.toNat + 2]
  else []

/-- The fields of the request, where it is taken. -/
def requestFields (out : Outside ι) (s : List UInt8) : List ℕ :=
  match s with
  | version :: cmd :: _ :: addrType :: s =>
    4 :: if version = SOCKS_VERSION ∧ cmd = SOCKS_CMD_CONNECT then destinationFields out addrType s
      else []
  | _ => [4]

/-- The fields of the handshake: version and number of methods, the methods, and the request when the
authentication is answered. -/
def handshakeFields (out : Outside ι) (s : List UInt8) : List ℕ :=
  match s with
  | version :: nmethods :: s =>
    2 :: if version = SOCKS_VERSION then
      nmethods.toNat ::
        if nmethods.toNat ≤ s.length ∧ SOCKS_AUTH_NOAUTH ∈ s.take nmethods.toNat ∧ out.nwritten = 2 then
          requestFields out (s.drop nmethods.toNat)
        else []
    else []
  | _ => [2]

variable {out : Outside ι} {buf : Buf} {s : List UInt8}

theorem lwipRead_bind {β : Type} (buf : Buf) (n : ℕ) (f : ℕ × Buf → Reader UInt8 β) :
    lwipRead buf n >>= f = .read n fun chunk => f (chunk.length, overwrite buf chunk) := rfl

/-! ### A field that is cut ends the handshake -/

theorem socksAuth_strict (buf : Buf) : (socksAuth buf).Strict fun r => r.1 = false := by
  rw [socksAuth, lwipRead_bind]
  refine ⟨fun l hl => ⟨_, rfl, if_pos hl⟩, fun l hl => ?_⟩
  dsimp only
  rw [if_neg (by omega)]
  split
  · trivial
  · rw [lwipRead_bind]
    refine .of_done (fun l hl => ⟨_, rfl, if_pos hl⟩) fun l hl => ⟨_, if_neg (by omega)⟩

theorem socksRequestConnectIpv4_strict (out : Outside ι) (buf : Buf) :
    (socksRequestConnectIpv4 out buf).Strict fun _ => True := by
  rw [socksRequestConnectIpv4]
  split
  · trivial
  · rw [lwipRead_bind]
    refine .of_done (fun l hl => ⟨_, trivial, if_pos hl⟩) fun l hl => ⟨_, if_neg (by omega)⟩

theorem socksRequestConnectDomainname_strict (out : Outside ι) (buf : Buf) :
    (socksRequestConnectDomainname out buf).Strict fun _ => True := by
  rw [socksRequestConnectDomainname, lwipRead_bind]
  refine ⟨fun l hl => ⟨_, trivial, if_pos hl⟩, fun l hl => ?_⟩
  dsimp only
  rw [if_neg (by omega), lwipRead_bind]
  -- a name without its port is enough, so that a short field may end with a request
  refine .of_done (fun l _ => ?_) fun l _ => ?_ <;> dsimp only <;> split
  · exact ⟨_, trivial, rfl⟩
  · split <;> exact ⟨_, trivial, rfl⟩
  · exact ⟨_, rfl⟩
  · split <;> exact ⟨_, rfl⟩

theorem socksRequest_strict (out : Outside ι) (buf : Buf) :
    (socksRequest out buf).Strict fun _ => True := by
  rw [socksRequest, lwipRead_bind]
  refine ⟨fun l hl => ⟨_, trivial, if_pos hl⟩, fun l hl => ?_⟩
  dsimp only
  rw [if_neg (by omega)]
  split
  · trivial
  split
  · trivial
  split
  · exact socksRequestConnectIpv4_strict out _
  split
  · exact socksRequestConnectDomainname_strict out _
  · trivial

theorem handshake_strict (out : Outside ι) (buf : Buf) : (handshake out buf).Strict fun _ => True := by
  refine (socksAuth_strict buf).bind (fun r hr => ⟨.rejected, trivial, ?_⟩) fun r => ?_
  · obtain ⟨ok, buf'⟩ := r
    obtain rfl : ok = false := hr
    rfl
  · dsimp only
    split
    · trivial
    · split
      · trivial
      · exact socksRequest_strict out _

/-! ### The fields are those of the stream -/

theorem socksRequestConnectIpv4_fields (out : Outside ι) (buf : Buf) (s : List UInt8) :
    (socksRequestConnectIpv4 out buf).fields s = if out.socket then [6] else [] := by
  rw [socksRequestConnectIpv4]
  cases out.socket with
  | false => rfl
  | true =>
    rw [if_neg (by decide), if_pos rfl, lwipRead_bind]
    refine Reader.fields_of_done (fun l => ?_) s
    dsimp only
    split <;> exact ⟨_, rfl⟩

theorem socksRequestConnectDomainname_fields (out : Outside ι) (buf : Buf) (s : List UInt8) :
    (socksRequestConnectDomainname out buf).fields s =
      match s with
      | [] => [1]
      | len :: _ => [1, len.toNat + 2] := by
  rw [socksRequestConnectDomainname, lwipRead_bind, Reader.fields]
  cases s with
  | nil => rfl
  | cons len s =>
    have hlen : overwrite buf [len] 0 = len := rfl
    have hone : 1 ≤ (len :: s).length := by simp
    rw [if_pos hone]
    simp only [List.take_succ_cons, List.take_zero, List.length_singleton, Nat.lt_irrefl, if_false,
      hlen]
    rw [lwipRead_bind, Reader.fields_of_done]
    intro l
    dsimp only
    split
    · exact ⟨_, rfl⟩
    · split <;> exact ⟨_, rfl⟩

theorem socksRequest_fields (out : Outside ι) (buf : Buf) (s : List UInt8) :
    (socksRequest out buf).fields s = requestFields out s := by
  rw [socksRequest, lwipRead_bind, Reader.fields]
  rcases s with _ | ⟨version, _ | ⟨cmd, _ | ⟨rsv, _ | ⟨addrType, s⟩⟩⟩⟩
  · rfl
  · rfl
  · rfl
  · rfl
  ·
    have h0 : overwrite buf [version, cmd, rsv, addrType] 0 = version := rfl
    have h1 : overwrite buf [version, cmd, rsv, addrType] 1 = cmd := rfl
    have h3 : overwrite buf [version, cmd, rsv, addrType] 3 = addrType := rfl
    have hlong : 4 ≤ (version :: cmd :: rsv :: addrType :: s).length := by simp
    rw [if_pos hlong, requestFields]
    simp only [List.take_succ_cons, List.take_zero, List.drop_succ_cons, List.drop_zero,
      List.length_cons, List.length_nil, Nat.lt_irrefl, if_false, h0, h1, h3, ne_eq, ite_not]
    congr 1
    by_cases hversion : version = SOCKS_VERSION
    · by_cases hcmd : cmd = SOCKS_CMD_CONNECT
      · have hboth : version = SOCKS_VERSION ∧ cmd = SOCKS_CMD_CONNECT := ⟨hversion, hcmd⟩
        rw [if_pos hversion, if_pos hcmd, if_pos hboth]
        unfold destinationFields
        by_cases hipv4 : addrType = SOCKS_ADDR_IPV4
        · rw [if_pos hipv4, if_pos hipv4, socksRequestConnectIpv4_fields]
        · rw [if_neg hipv4, if_neg hipv4]
          by_cases hname : addrType = SOCKS_ADDR_DOMAINNAME
          · rw [if_pos hname, if_pos hname, socksRequestConnectDomainname_fields]
          · rw [if_neg hname, if_neg hname]
            rfl
      · have hnot : ¬ (version = SOCKS_VERSION ∧ cmd = SOCKS_CMD_CONNECT) := fun h => hcmd h.2
        rw [if_pos hversion, if_neg hcmd, if_neg hnot]
        rfl
    · have hnot : ¬ (version = SOCKS_VERSION ∧ cmd = SOCKS_CMD_CONNECT) := fun h => hversion h.1
      rw [if_neg hversion, if_neg hnot]
      rfl

theorem overwrite_of_lt {l : List UInt8} {i : ℕ} (h : i < l.length) : overwrite buf l i = l[i] := by
  rw [overwrite, List.getElem?_eq_getElem h, Option.getD_some]

/-- The methods in the buffer are those that were read. -/
theorem any_noauth_iff (buf : Buf) (l : List UInt8) :
    ((List.range l.length).any fun i => overwrite buf l i = SOCKS_AUTH_NOAUTH) = true ↔
      SOCKS_AUTH_NOAUTH ∈ l := by
  rw [List.any_eq_true]
  constructor
  · rintro ⟨i, hi, heq⟩
    rw [List.mem_range] at hi
    rw [decide_eq_true_eq, overwrite_of_lt hi] at heq
    exact heq ▸ List.getElem_mem hi
  · intro h
    obtain ⟨i, hi, heq⟩ := List.mem_iff_getElem.mp h
    exact ⟨i, List.mem_range.mpr hi, decide_eq_true (by rw [overwrite_of_lt hi, heq])⟩

/-- What follows the authentication is asked for when a method is accepted. -/
theorem socksAuth_bind_fields {γ : Type} {f : Bool × Buf → Reader UInt8 γ}
    (hf : ∀ buf, ∃ c, f (false, buf) = .done c) (version nmethods : UInt8) :
    (socksAuth buf >>= f).fields (version :: nmethods :: s) =
      2 :: if version = SOCKS_VERSION then
        nmethods.toNat ::
          if nmethods.toNat ≤ s.length ∧ SOCKS_AUTH_NOAUTH ∈ s.take nmethods.toNat then
            (f (true, overwrite (overwrite buf [version, nmethods])
              (s.take nmethods.toNat))).fields (s.drop nmethods.toNat)
          else []
      else [] := by
  have h0 : overwrite buf [version, nmethods] 0 = version := rfl
  have h1 : overwrite buf [version, nmethods] 1 = nmethods := rfl
  have hlong : 2 ≤ (version :: nmethods :: s).length := by simp
  obtain ⟨k, hk⟩ : ∃ k, socksAuth buf = .read 2 k ∧ k [version, nmethods] =
      if version ≠ SOCKS_VERSION then .done (false, overwrite buf [version, nmethods])
      else .read nmethods.toNat fun l =>
        if l.length < nmethods.toNat then .done (false, overwrite (overwrite buf [version, nmethods]) l)
        else .done ((List.range nmethods.toNat).any fun i =>
          overwrite (overwrite buf [version, nmethods]) l i = SOCKS_AUTH_NOAUTH,
            overwrite (overwrite buf [version, nmethods]) l) := ⟨_, rfl, rfl⟩
  rw [hk.1]
  change (Reader.read 2 fun l => (k l).bind f).fields _ = _
  rw [Reader.fields, if_pos hlong]
  congr 1
  change ((k [version, nmethods]).bind f).fields s = _
  rw [hk.2]
  by_cases hversion : version = SOCKS_VERSION
  · rw [if_neg (not_not.mpr hversion), if_pos hversion]
    change (Reader.read nmethods.toNat fun l => Reader.bind (ite _ _ _) f).fields s = _
    rw [Reader.fields]
    congr 1
    by_cases havail : nmethods.toNat ≤ s.length
    · have hlen : (s.take nmethods.toNat).length = nmethods.toNat := List.length_take_of_le havail
      have hany := any_noauth_iff (overwrite buf [version, nmethods]) (s.take nmethods.toNat)
      rw [hlen] at hany
      rw [if_pos havail, if_neg (by omega)]
      change (f (_, _)).fields _ = _
      by_cases hmem : SOCKS_AUTH_NOAUTH ∈ s.take nmethods.toNat
      · rw [if_pos ⟨havail, hmem⟩, hany.mpr hmem]
      · obtain ⟨c, hc⟩ := hf (overwrite (overwrite buf [version, nmethods]) (s.take nmethods.toNat))
        have hfalse := Bool.eq_false_iff.mpr (mt hany.mp hmem)
        rw [if_neg fun h => hmem h.2, hfalse, hc, Reader.fields]
    · rw [if_neg havail, if_neg fun h => havail h.1]
  · obtain ⟨c, hc⟩ := hf (overwrite buf [version, nmethods])
    rw [if_pos hversion, if_neg hversion]
    change (f _).fields s = []
    rw [hc, Reader.fields]

theorem handshake_fields (out : Outside ι) (buf : Buf) (s : List UInt8) :
    (handshake out buf).fields s = handshakeFields out s := by
  match s with
  | [] | [_] => rfl
  | version :: nmethods :: s =>
    rw [handshake, socksAuth_bind_fields, handshakeFields]
    case hf => exact fun _ => ⟨_, rfl⟩
    congr 1
    by_cases hversion : version = SOCKS_VERSION
    · rw [if_pos hversion, if_pos hversion]
      congr 1
      by_cases hauth : nmethods.toNat ≤ s.length ∧ SOCKS_AUTH_NOAUTH ∈ s.take nmethods.toNat
      · rw [if_pos hauth]
        by_cases hreply : out.nwritten = 2
        · rw [if_pos ⟨hauth.1, hauth.2, hreply⟩]
          simp only [socksAuthReply, hreply, decide_true, Bool.not_true, Bool.false_eq_true, if_false]
          exact socksRequest_fields out _ _
        · rw [if_neg fun h => hreply h.2.2]
          simp only [socksAuthReply, hreply, decide_false, Bool.not_true, Bool.not_false,
            Bool.false_eq_true, if_false, if_true]
          rfl
      · rw [if_neg hauth, if_neg fun h => hauth ⟨h.1, h.2.1⟩]
    · rw [if_neg hversion, if_neg hversion]

theorem handshakeFields_cons (out : Outside ι) (s : List UInt8) :
    ∃ ns, handshakeFields out s = 2 :: ns ∧ (s.length ≤ 1 → ns = []) := by
  match s with
  | [] | [_] => exact ⟨[], rfl, fun _ => rfl⟩
  | version :: nmethods :: s => exact ⟨_, rfl, fun h => absurd h (by simp)⟩

/-- When two cuts of a stream lead to the same decision and take the same from the stream: exactly when
they return the same of every field, up to the first that is not returned whole. Only a stream of at
most one byte leaves no choice. -/
theorem handshake_segmentation (out : Outside ι) (buf : Buf) (s : List UInt8) :
    (∀ cuts cuts', (handshake out buf).run s cuts = (handshake out buf).run s cuts' ↔
      SameCut (handshakeFields out s) s.length cuts cuts') ∧
    ((∀ cuts cuts', (handshake out buf).run s cuts = (handshake out buf).run s cuts') ↔
      s.length ≤ 1) := by
  have hiff := run_eq_iff (handshake_strict out buf) s
  rw [handshake_fields] at hiff
  obtain ⟨ns, hns, hend⟩ := handshakeFields_cons out s
  refine ⟨hiff, fun h => ?_, fun hshort cuts cuts' => (hiff cuts cuts').mpr ?_⟩
  · -- the version alone, or the version and the number of methods
    have hcut := (hiff [1] [2]).mp (h [1] [2])
    rw [hns] at hcut
    have hfirst : returned 2 s.length 1 = returned 2 s.length 2 := hcut.1
    rw [returned, returned] at hfirst
    omega
  · rw [hns, hend hshort]
    refine ⟨?_, fun _ => trivial⟩
    rw [returned, returned]
    omega

/-- A proxy whose connections succeed. -/
def reachable : Outside Unit := ⟨2, true, fun _ _ => true, fun _ _ => some [()], fun _ => true⟩

/-- One method, no authentication, and a request for 10.0.0.1, port 80. -/
def greeting : List UInt8 := [5, 1, 0, 5, 1, 0, 1, 10, 0, 0, 1, 0, 80]

/-- The greeting in one piece, and with its first byte in a piece of its own. -/
theorem handshake_cut :
    (handshake reachable fun _ => 0).run greeting [] =
      (.requested (.ipv4 [10, 0, 0, 1] [0, 80]) true, 13) ∧
    (handshake reachable fun _ => 0).run greeting [1] = (.rejected, 1) ∧
    ¬ ∀ (out : Outside Unit) (buf : Buf) (s : List UInt8) (cuts cuts' : List ℕ),
      (handshake out buf).run s cuts = (handshake out buf).run s cuts' := by
  have hwhole : (handshake reachable fun _ => 0).run greeting [] =
      (.requested (.ipv4 [10, 0, 0, 1] [0, 80]) true, 13) := by decide
  have hcut : (handshake reachable fun _ => 0).run greeting [1] = (.rejected, 1) := by decide
  refine ⟨hwhole, hcut, fun h => ?_⟩
  have heq := h reachable (fun _ => 0) greeting [] [1]
  rw [hwhole, hcut] at heq
  cases heq

end QuietLwip.Apps
