import QuietLwip.Foundation.Serial
import QuietLwip.Foundation.Word

/-!
# Segments and sequence numbers

The comparisons of `tcp_impl.h`, and what a queued segment is: its sequence number, its length
field, the bytes of its pbufs and the two flags that take a sequence number of their own. The
length field and the number of bytes are kept apart, as the code does.
-/

namespace QuietLwip.Stream

open Serial Word

variable {α : Type*} {p q r : ℤ} {n : ℕ}

def tcpSeqLt (a b : Seq) : Bool := dist a b < 0
def tcpSeqLeq (a b : Seq) : Bool := dist a b ≤ 0
def tcpSeqGt (a b : Seq) : Bool := dist a b > 0
def tcpSeqGeq (a b : Seq) : Bool := dist a b ≥ 0
def tcpSeqBetween (a b c : Seq) : Bool := tcpSeqGeq a b && tcpSeqLeq a c

theorem tcpSeqLt_place (lo : -2147483648 ≤ p - q) (hi : p - q < 2147483648) :
    tcpSeqLt (p : Seq) (q : Seq) = decide (p < q) := by
  rw [tcpSeqLt, dist_place lo hi]
  exact decide_eq_decide.mpr (by omega)

theorem tcpSeqLeq_place (lo : -2147483648 ≤ p - q) (hi : p - q < 2147483648) :
    tcpSeqLeq (p : Seq) (q : Seq) = decide (p ≤ q) := by
  rw [tcpSeqLeq, dist_place lo hi]
  exact decide_eq_decide.mpr (by omega)

theorem tcpSeqGt_place (lo : -2147483648 ≤ p - q) (hi : p - q < 2147483648) :
    tcpSeqGt (p : Seq) (q : Seq) = decide (q < p) := by
  rw [tcpSeqGt, dist_place lo hi]
  exact decide_eq_decide.mpr (by omega)

theorem tcpSeqGeq_place (lo : -2147483648 ≤ p - q) (hi : p - q < 2147483648) :
    tcpSeqGeq (p : Seq) (q : Seq) = decide (q ≤ p) := by
  rw [tcpSeqGeq, dist_place lo hi]
  exact decide_eq_decide.mpr (by omega)

theorem tcpSeqBetween_place (lo : -2147483648 ≤ p - q) (hi : p - q < 2147483648)
    (lo' : -2147483648 ≤ p - r) (hi' : p - r < 2147483648) :
    tcpSeqBetween (p : Seq) (q : Seq) (r : Seq) = decide (q ≤ p ∧ p ≤ r) := by
  rw [tcpSeqBetween, tcpSeqGeq_place lo hi, tcpSeqLeq_place lo' hi', Bool.decide_and]

/-- A queued segment: `struct tcp_seg` with what its header and its pbufs hold. -/
structure Seg (α : Type*) where
  seqno : Seq
  len : ℕ
  p : List α
  syn : Bool := false
  fin : Bool := false
  deriving DecidableEq, Repr

namespace Seg

/-- `TCP_TCPLEN`. -/
def tcplen (seg : Seg α) : ℕ := seg.len + (seg.fin || seg.syn).toNat

/-- Setting the length field and shortening the pbufs to it with `pbuf_realloc`, which leaves a
shorter chain alone. -/
def cut (seg : Seg α) (n : ℕ) : Seg α := { seg with len := n, p := seg.p.take n }

@[simp] theorem cut_seqno (seg : Seg α) : (seg.cut n).seqno = seg.seqno := rfl
@[simp] theorem cut_len (seg : Seg α) : (seg.cut n).len = n := rfl
@[simp] theorem cut_p (seg : Seg α) : (seg.cut n).p = seg.p.take n := rfl
@[simp] theorem cut_syn (seg : Seg α) : (seg.cut n).syn = seg.syn := rfl
@[simp] theorem cut_fin (seg : Seg α) : (seg.cut n).fin = seg.fin := rfl

theorem len_le_tcplen (s : Seg α) : s.len ≤ s.tcplen := Nat.le_add_right _ _

theorem tcplen_le (s : Seg α) : s.tcplen ≤ s.len + 1 :=
  Nat.add_le_add_left (Bool.toNat_le _) _

theorem tcplen_plain {s : Seg α} (hfin : s.fin = false) (hsyn : s.syn = false) :
    s.tcplen = s.len := by
  rw [tcplen, hfin, hsyn]
  rfl

theorem tcplen_fin {s : Seg α} (hfin : s.fin = true) : s.tcplen = s.len + 1 := by
  rw [tcplen, hfin]
  rfl

end Seg

/-! ### Results -/

universe u v

variable {ε : Type u} {β γ : Type v} {x : Except ε β}

theorem bind_ok {f : β → Except ε γ} {c : γ} (h : (x >>= f) = .ok c) :
    ∃ b, x = .ok b ∧ f b = .ok c := by
  cases x with
  | error e => cases h
  | ok b => exact ⟨b, rfl, h⟩

theorem map_ok {f : β → γ} {c : γ} (h : x.map f = .ok c) : ∃ b, x = .ok b ∧ f b = c := by
  cases x with
  | error e => cases h
  | ok b =>
    cases h
    exact ⟨b, rfl, rfl⟩

/-- What comes out is as `Q` says, or the error is as `P` says. -/
def Ends (P : ε → Prop) (Q : β → Prop) : Except ε β → Prop
  | .ok b => Q b
  | .error e => P e

namespace Ends

variable {P : ε → Prop} {Q Q' : β → Prop} {R : γ → Prop}

theorem mono (hx : Ends P Q x) (hle : ∀ b, Q b → Q' b) : Ends P Q' x := by
  cases x with
  | error e => exact hx
  | ok b => exact hle b hx

theorem map {f : β → γ} (hx : Ends P Q x) (hf : ∀ b, Q b → R (f b)) : Ends P R (x.map f) := by
  cases x with
  | error e => exact hx
  | ok b => exact hf b hx

theorem bind {f : β → Except ε γ} (hx : Ends P Q x) (hf : ∀ b, Q b → Ends P R (f b)) :
    Ends P R (x >>= f) := by
  cases x with
  | error e => exact hx
  | ok b => exact hf b hx

theorem ok {b : β} (hx : Ends P Q x) (h : x = .ok b) : Q b := by
  subst h
  exact hx

theorem error {e : ε} (hx : Ends P Q x) (h : x = .error e) : P e := by
  subst h
  exact hx

end Ends

end QuietLwip.Stream
