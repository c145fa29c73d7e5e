import QuietLwip.Foundation.Links
import QuietLwip.Foundation.Word
import Mathlib.Data.Option.Basic

/-!
# The TCP protocol control blocks and their lists

Every pcb is in one of four linked lists, or in none. The lists are threaded through a field of
the pcbs; this field, of all pcbs, and the heads of the lists are kept together here, apart from
what a pcb says of its connection.
-/

namespace QuietLwip.Tcp

open Links Word

inductive TcpState where
  | closed | listen | synSent | synRcvd | established | finWait1 | finWait2 | closeWait
  | closing | lastAck | timeWait
  deriving DecidableEq, Repr

/-- The states that have no list of their own. -/
def TcpState.isActive : TcpState → Bool
  | .closed | .listen | .timeWait => false
  | _ => true

/-- The lists, in the order of `tcp_pcb_lists`. -/
inductive PcbList where
  | listen | bound | active | tw
  deriving DecidableEq, Repr

/-- `TCP_WND`, four times `TCP_MSS`. -/
def tcpWnd : ℕ := 4096

/-- What a pcb holds of its connection, as far as the timers look at it. -/
structure Conn where
  -- `SOF_KEEPALIVE`
  keepalive : Bool := false
  -- `TF_ACK_DELAY`, `TF_ACK_NOW`, `TF_RXCLOSED`
  ackDelay : Bool := false
  ackNow : Bool := false
  rxClosed : Bool := false
  -- data the application has refused, with its `PBUF_FLAG_TCP_FIN`
  refusedData : Option Bool := none
  rcvWnd : ℕ := tcpWnd
  polltmr : ℕ := 0
  pollinterval : ℕ := 0
  tmr : ℕ := 0
  rtime : ℤ := -1
  rto : ℤ := 6
  sa : ℤ := 0
  sv : ℤ := 6
  nrtx : ℕ := 0
  mss : ℕ := 536
  cwnd : ℕ := 1
  ssthresh : ℕ := 0
  sndWnd : ℕ := 0
  -- whether `unacked` and `ooseq` hold segments
  unacked : Bool := false
  ooseq : Bool := false
  keepIdle : ℕ := 7200000
  keepCntSent : ℕ := 0
  persistCnt : ℕ := 0
  persistBackoff : ℕ := 0

/-- A pcb; the address 0 is `IP_ADDR_ANY`. -/
structure TcpPcb where
  state : TcpState
  prio : ℕ
  reuseaddr : Bool
  localIp : ℕ
  localPort : ℕ
  remoteIp : ℕ
  remotePort : ℕ
  lastTimer : ℕ
  conn : Conn

/-- The list that a pcb belongs in. -/
def TcpPcb.home (pcb : TcpPcb) : Option PcbList :=
  match pcb.state with
  | .closed => if pcb.localPort = 0 then none else some .bound
  | .listen => some .listen
  | .timeWait => some .tw
  | _ => some .active

/-- The links of all pcbs and the heads of the lists. -/
structure PcbLists where
  next : ℕ → Option ℕ
  head : PcbList → Option ℕ

namespace PcbLists

variable {p p' : PcbLists} {w v : PcbList} {l front back : List ℕ} {m n room : ℕ}

/-- `TCP_REG`. -/
def reg (p : PcbLists) (w : PcbList) (n : ℕ) : PcbLists where
  next := Function.update p.next n (p.head w)
  head := Function.update p.head w (some n)

/-- `TCP_RMV`; `none` when the search for the pcb does not end. -/
def rmv (p : PcbLists) (room : ℕ) (w : PcbList) (n : ℕ) : Option PcbLists :=
  if p.head w = some n then
    some { next := Function.update p.next n none, head := Function.update p.head w (p.next n) }
  else
    (findPrev p.next n room (p.head w)).map fun prev =>
      match prev with
      | some m =>
        { p with next := Function.update (Function.update p.next m (p.next n)) n none }
      | none => { p with next := Function.update p.next n none }

/-- Unlinking the pcb `n` behind `prev`, as the timers do. -/
def unlink (p : PcbLists) (w : PcbList) (prev : Option ℕ) (n : ℕ) : PcbLists :=
  match prev with
  | some m => { p with next := Function.update p.next m (p.next n) }
  | none => { p with head := Function.update p.head w (p.next n) }

/-- Moving the pcb `n` behind `prev` to the front, as `tcp_input` does. -/
def toFront (p : PcbLists) (w : PcbList) (prev : Option ℕ) (n : ℕ) : PcbLists :=
  match prev with
  | some m =>
    { next := Function.update (Function.update p.next m (p.next n)) n (p.head w)
      head := Function.update p.head w (some n) }
  | none => p

/-- The list `w` holds the pcbs `l`, in this order. -/
def At (p : PcbLists) (w : PcbList) (l : List ℕ) : Prop := ListAt p.next (p.head w) l

theorem At.of_head {h : Option ℕ} (hl : ListAt p.next h l) (hh : p.head w = h) : p.At w l := by
  unfold At
  rw [hh]
  exact hl

theorem At.nodup (h : p.At w l) : l.Nodup := ListAt.nodup h

theorem At.unique {l' : List ℕ} (h : p.At w l) (h' : p.At w l') : l = l' := ListAt.unique h h'

/-- The link of a pcb that is not in the list is of no account to it. -/
theorem At.update (h : p.At w l) (hn : n ∉ l) (q : Option ℕ) :
    PcbLists.At { p with next := Function.update p.next n q } w l :=
  ListAt.update h hn q

theorem At.reg_self (h : p.At w l) (hn : n ∉ l) : (p.reg w n).At w (n :: l) :=
  .of_head (ListAt.push h hn) (Function.update_self ..)

theorem At.reg_other (h : p.At w l) (hn : n ∉ l) (hv : w ≠ v) : (p.reg v n).At w l :=
  .of_head (ListAt.update h hn _) (Function.update_of_ne hv ..)

theorem mem_of_next {h : Option ℕ} {next : ℕ → Option ℕ} (hl : ListAt next h l) (hm : m ∈ l)
    (hn : next m = some n) : n ∈ l := by
  obtain ⟨front, back, rfl⟩ := List.append_of_mem hm
  have hback := hl.from
  rw [hn] at hback
  refine List.mem_append_right _ (List.mem_cons_of_mem _ ?_)
  exact List.mem_of_mem_head? hback.head

theorem At.rmv_other (h : p.At w l) (hn : n ∉ l) (hv : w ≠ v) (hp : p.rmv room v n = some p') :
    p'.At w l := by
  unfold rmv at hp
  split at hp
  · cases hp
    exact .of_head (ListAt.update h hn _) (Function.update_of_ne hv ..)
  · obtain ⟨prev, hprev, rfl⟩ := Option.map_eq_some_iff.mp hp
    cases prev with
    | none => exact h.update hn _
    | some m =>
      -- a pcb of the list does not point to `n`, so it is not the one found
      have hm : m ∉ l := fun hm => hn (mem_of_next h hm (next_of_findPrev hprev))
      exact (h.update hm _).update hn _

theorem At.rmv_self (h : p.At w l) (hp : p.rmv room w n = some p') : p'.At w (l.erase n) := by
  have hnodup := h.nodup
  unfold rmv at hp
  split at hp
  · rename_i hhead
    cases hp
    cases l with
    | nil => cases h.symm.trans hhead
    | cons a l =>
      obtain rfl : a = n := Option.some.inj (h.1.symm.trans hhead)
      rw [List.erase_cons_head]
      exact .of_head (ListAt.update h.2 (List.nodup_cons.mp hnodup).1 _) (Function.update_self ..)
  · rename_i hhead
    obtain ⟨prev, hprev, rfl⟩ := Option.map_eq_some_iff.mp hp
    cases prev with
    | none =>
      have hn : n ∉ l := by
        cases l with
        | nil => exact List.not_mem_nil
        | cons a l =>
          intro hn
          refine (List.mem_cons.mp hn).elim ?_ (ListAt.of_findPrev_none h hprev)
          rintro rfl
          exact hhead h.1
      rw [List.erase_of_not_mem hn]
      exact h.update hn _
    | some m =>
      obtain ⟨front, back, rfl⟩ := ListAt.of_findPrev_some h hprev
      have hsplit : front ++ m :: n :: back = (front ++ [m]) ++ n :: back := by
        rw [List.append_assoc]
        rfl
      rw [hsplit] at hnodup ⊢
      have hn := not_mem_of_nodup hnodup
      rw [erase_of_nodup hnodup]
      rw [List.append_assoc] at hn ⊢
      exact ListAt.update (ListAt.unlink h) hn _

theorem eq_append_of_getLast? (h : front.getLast? = some m) : ∃ front', front = front' ++ [m] := by
  exact ⟨front.dropLast, (List.dropLast_append_getLast? m h).symm⟩

theorem At.unlink (h : p.At w (front ++ n :: back)) :
    (p.unlink w front.getLast? n).At w (front ++ back) := by
  cases hlast : front.getLast? with
  | none =>
    obtain rfl := List.getLast?_eq_none_iff.mp hlast
    exact .of_head h.2 (Function.update_self ..)
  | some m =>
    obtain ⟨front, rfl⟩ := eq_append_of_getLast? hlast
    rw [List.append_assoc] at h ⊢
    exact ListAt.unlink h

theorem At.unlink_other {prev : Option ℕ} (h : p.At w l) (hprev : ∀ m ∈ prev, m ∉ l)
    (hv : w ≠ v) : (p.unlink v prev n).At w l := by
  cases prev with
  | none => exact .of_head h (Function.update_of_ne hv ..)
  | some m => exact h.update (hprev m rfl) _

theorem At.toFront (h : p.At w (front ++ n :: back)) :
    (p.toFront w front.getLast? n).At w (n :: (front ++ back)) := by
  cases hlast : front.getLast? with
  | none =>
    obtain rfl := List.getLast?_eq_none_iff.mp hlast
    exact h
  | some m =>
    obtain ⟨front, rfl⟩ := eq_append_of_getLast? hlast
    rw [List.append_assoc] at h ⊢
    exact .of_head (ListAt.toFront h) (Function.update_self ..)

theorem At.toFront_other {prev : Option ℕ} (h : p.At w l) (hprev : ∀ m ∈ prev, m ∉ l)
    (hn : n ∉ l) (hv : w ≠ v) : (p.toFront v prev n).At w l := by
  cases prev with
  | none => exact h
  | some m =>
    exact .of_head (ListAt.update (ListAt.update h (hprev m rfl) _) hn _)
      (Function.update_of_ne hv ..)

end PcbLists

end QuietLwip.Tcp
