import QuietLwip.Dns.Steps
import Mathlib.Data.List.GetD

/-!
# Reads of a response

Exactly when `dns_recv` stays in the message and in the stored name. Then it makes no difference what
older messages have left behind them.
-/

namespace QuietLwip.Dns

open Fallible Ip

/-- The answers lie in the bytes, up to the first that is an address. -/
inductive Answers : ℕ → List UInt8 → Prop
  | nil {bytes : List UInt8} : Answers 0 bytes
  | addr {n : ℕ} {bytes p : List UInt8} (hskip : Skips bytes p)
    (hlen : SIZEOF_DNS_ANSWER + 4 ≤ p.length) (haddr : (answerHdr p).isAddr) : Answers (n + 1) bytes
  | other {n : ℕ} {bytes p : List UInt8} (hskip : Skips bytes p)
    (hlen : SIZEOF_DNS_ANSWER ≤ p.length) (haddr : ¬ (answerHdr p).isAddr)
    (h : Answers n (p.drop (SIZEOF_DNS_ANSWER + (answerHdr p).len))) : Answers (n + 1) bytes

/-- The first of the answers that is an address, with its time to live. -/
inductive Holds : ℕ → List UInt8 → UInt32 → IpAddr → Prop
  | here {n : ℕ} {bytes p : List UInt8} (hskip : Skips bytes p)
    (hlen : SIZEOF_DNS_ANSWER + 4 ≤ p.length) (haddr : (answerHdr p).isAddr) :
    Holds (n + 1) bytes (answerHdr p).ttl (addrAt (p.drop SIZEOF_DNS_ANSWER))
  | later {n : ℕ} {bytes p : List UInt8} {ttl : UInt32} {ipaddr : IpAddr} (hskip : Skips bytes p)
    (hlen : SIZEOF_DNS_ANSWER ≤ p.length) (haddr : ¬ (answerHdr p).isAddr)
    (h : Holds n (p.drop (SIZEOF_DNS_ANSWER + (answerHdr p).len)) ttl ipaddr) :
    Holds (n + 1) bytes ttl ipaddr

/-- The question section of a message. -/
def question (msg : List UInt8) : List UInt8 := msg.drop SIZEOF_DNS_HDR

/-- The flags say that the message is a response without an error, for one question. -/
structure Sound (msg : List UInt8) : Prop where
  response : (dnsHdr msg).flags1 &&& DNS_FLAG1_RESPONSE ≠ 0
  noError : (dnsHdr msg).flags2 &&& DNS_FLAG2_ERR_MASK = 0
  questions : (dnsHdr msg).numquestions = 1

/-- The comparison with the name ends inside both, and so do the answers if the name is matched. -/
structure InBounds (name : CString) (msg : List UInt8) : Prop where
  compared : Matches (name.1 ++ [0]) (question msg) ∨ Differs (name.1 ++ [0]) (question msg)
  answers : Matches (name.1 ++ [0]) (question msg) → ∃ p, Skips (question msg) p ∧
    Answers (dnsHdr msg).numanswers (p.drop SIZEOF_DNS_QUERY)

def nothing : Behind := ⟨[], []⟩

/-! ### The answers -/

section answers

variable {bytes p : List UInt8} {nanswers : ℕ}

theorem Skips.ne_nil (h : Skips bytes p) : bytes ≠ [] := by
  rintro rfl
  cases h

theorem Answers.zero_of_nil (h : Answers nanswers []) : nanswers = 0 := by
  cases h with
  | nil => rfl
  | addr hskip => exact absurd rfl hskip.ne_nil
  | other hskip => exact absurd rfl hskip.ne_nil

theorem answerLoop_none (h : ∀ p, ¬ Skips bytes p) : answerLoop (nanswers + 1) bytes = none := by
  have hparse : dnsParseName bytes = none := by
    rw [Option.eq_none_iff_forall_ne_some]
    exact fun p hp => h p (skips_of_dnsParseName hp)
  rw [answerLoop, hparse]
  rfl

theorem answerLoop_short (hskip : Skips bytes p) (hlen : p.length < SIZEOF_DNS_ANSWER) :
    answerLoop (nanswers + 1) bytes = none := by
  rw [answerLoop, dnsParseName_of_skips hskip]
  exact if_pos hlen

theorem answerLoop_addr (hskip : Skips bytes p) (hlen : SIZEOF_DNS_ANSWER ≤ p.length)
    (haddr : (answerHdr p).isAddr) :
    answerLoop (nanswers + 1) bytes =
      if (p.drop SIZEOF_DNS_ANSWER).length < 4 then none
      else some (some ((answerHdr p).ttl, addrAt (p.drop SIZEOF_DNS_ANSWER))) := by
  rw [answerLoop, dnsParseName_of_skips hskip]
  exact (if_neg (Nat.not_lt.mpr hlen)).trans (if_pos haddr)

theorem answerLoop_other (hskip : Skips bytes p) (hlen : SIZEOF_DNS_ANSWER ≤ p.length)
    (haddr : ¬ (answerHdr p).isAddr) :
    answerLoop (nanswers + 1) bytes =
      answerLoop nanswers (p.drop (SIZEOF_DNS_ANSWER + (answerHdr p).len)) := by
  rw [answerLoop, dnsParseName_of_skips hskip, ← List.drop_drop]
  exact (if_neg (Nat.not_lt.mpr hlen)).trans (if_neg haddr)

theorem length_drop_lt : (p.drop SIZEOF_DNS_ANSWER).length < 4 ↔ p.length < SIZEOF_DNS_ANSWER + 4 := by
  rw [List.length_drop, SIZEOF_DNS_ANSWER]
  omega

/-- What an answer inside the bytes looks like. -/
theorem Answers.succ (h : Answers (nanswers + 1) bytes) :
    ∃ p, Skips bytes p ∧ SIZEOF_DNS_ANSWER ≤ p.length ∧
      ((answerHdr p).isAddr ∧ SIZEOF_DNS_ANSWER + 4 ≤ p.length ∨
        ¬ (answerHdr p).isAddr ∧
          Answers nanswers (p.drop (SIZEOF_DNS_ANSWER + (answerHdr p).len))) := by
  cases h with
  | @addr _ _ p hskip hlen haddr =>
    exact ⟨p, hskip, (Nat.le_add_right _ _).trans hlen, .inl ⟨haddr, hlen⟩⟩
  | @other _ _ p hskip hlen haddr h => exact ⟨p, hskip, hlen, .inr ⟨haddr, h⟩⟩

theorem answerLoop_isSome : (answerLoop nanswers bytes).isSome ↔ Answers nanswers bytes := by
  induction nanswers generalizing bytes with
  | zero => simp [answerLoop, Answers.nil]
  | succ nanswers ih =>
    constructor
    · intro h
      by_cases hskip : ∃ p, Skips bytes p
      · obtain ⟨p, hskip⟩ := hskip
        by_cases hlen : p.length < SIZEOF_DNS_ANSWER
        · rw [answerLoop_short hskip hlen] at h
          cases h
        · have hle : SIZEOF_DNS_ANSWER ≤ p.length := Nat.not_lt.mp hlen
          by_cases haddr : (answerHdr p).isAddr
          · rw [answerLoop_addr hskip hle haddr] at h
            split at h
            · cases h
            · next hfour =>
              rw [length_drop_lt] at hfour
              exact .addr hskip (Nat.not_lt.mp hfour) haddr
          · rw [answerLoop_other hskip hle haddr, ih] at h
            exact .other hskip hle haddr h
      · rw [answerLoop_none fun p hp => hskip ⟨p, hp⟩] at h
        cases h
    · intro h
      obtain ⟨p, hskip, hle, ⟨haddr, hfour⟩ | ⟨haddr, hrest⟩⟩ := h.succ
      · rw [answerLoop_addr hskip hle haddr, if_neg (by rw [length_drop_lt]; exact Nat.not_lt.mpr hfour)]
        rfl
      · rw [answerLoop_other hskip hle haddr, ih]
        exact hrest

section holds

variable {ttl : UInt32} {ipaddr : IpAddr}

theorem answerLoop_of_holds (h : Holds nanswers bytes ttl ipaddr) :
    answerLoop nanswers bytes = some (some (ttl, ipaddr)) := by
  induction h with
  | here hskip hlen haddr =>
    rw [answerLoop_addr hskip ((Nat.le_add_right _ _).trans hlen) haddr,
      if_neg (by rw [length_drop_lt]; exact Nat.not_lt.mpr hlen)]
  | later hskip hlen haddr h ih =>
    rw [answerLoop_other hskip hlen haddr]
    exact ih

theorem holds_of_answerLoop (h : answerLoop nanswers bytes = some (some (ttl, ipaddr))) :
    Holds nanswers bytes ttl ipaddr := by
  induction nanswers generalizing bytes with
  | zero => cases h
  | succ nanswers ih =>
    have hanswers : Answers (nanswers + 1) bytes := by
      rw [← answerLoop_isSome, h]
      rfl
    obtain ⟨p, hskip, hle, ⟨haddr, hfour⟩ | ⟨haddr, -⟩⟩ := hanswers.succ
    · rw [answerLoop_addr hskip hle haddr,
        if_neg (by rw [length_drop_lt]; exact Nat.not_lt.mpr hfour)] at h
      cases h
      exact .here hskip hfour haddr
    · rw [answerLoop_other hskip hle haddr] at h
      exact .later hskip hle haddr (ih h)

end holds

/-! ### More bytes behind the message -/

theorem answerHdr_append (behind : List UInt8) (h : SIZEOF_DNS_ANSWER ≤ p.length) :
    answerHdr (p ++ behind) = answerHdr p := by
  have hget : ∀ k < SIZEOF_DNS_ANSWER, (p ++ behind).getD k 0 = p.getD k 0 :=
    fun k hk => List.getD_append _ _ _ _ (hk.trans_le h)
  simp (disch := decide) only [answerHdr, hget]

theorem addrAt_append (behind : List UInt8) (h : 4 ≤ p.length) :
    addrAt (p ++ behind) = addrAt p := by
  have hget : ∀ k < 4, (p ++ behind).getD k 0 = p.getD k 0 :=
    fun k hk => List.getD_append _ _ _ _ (hk.trans_le h)
  simp (disch := decide) only [addrAt, hget]

/-- A pointer that went beyond the message is not read any more. -/
theorem Answers.drop_append {k : ℕ} (h : Answers nanswers (p.drop k)) (behind : List UInt8) :
    nanswers = 0 ∨ (p ++ behind).drop k = p.drop k ++ behind := by
  by_cases hk : k ≤ p.length
  · exact .inr (List.drop_append_of_le_length hk)
  · rw [List.drop_of_length_le (Nat.le_of_not_le hk)] at h
    exact .inl h.zero_of_nil

theorem Answers.skip_append {k : ℕ} {p' behind : List UInt8} (h : Answers nanswers (p.drop k))
    (hp' : p ≠ [] → p' = p ++ behind) : nanswers = 0 ∨ p'.drop k = p.drop k ++ behind := by
  by_cases hp : p = []
  · rw [hp, List.drop_nil] at h
    exact .inl h.zero_of_nil
  · rw [hp' hp]
    exact h.drop_append behind

theorem answerLoop_append (h : Answers nanswers bytes) (behind : List UInt8) :
    answerLoop nanswers (bytes ++ behind) = answerLoop nanswers bytes := by
  induction nanswers generalizing bytes with
  | zero => rfl
  | succ nanswers ih =>
    obtain ⟨p, hskip, hle, hcase⟩ := h.succ
    obtain ⟨p', hskip', hp'⟩ := hskip.append behind
    have hne : p ≠ [] := List.ne_nil_of_length_pos ((by decide : 0 < SIZEOF_DNS_ANSWER).trans_le hle)
    obtain rfl := hp' hne
    have hle' : SIZEOF_DNS_ANSWER ≤ (p ++ behind).length := by
      rw [List.length_append]
      exact hle.trans (Nat.le_add_right _ _)
    have hhdr := answerHdr_append behind hle
    obtain ⟨haddr, hfour⟩ | ⟨haddr, hrest⟩ := hcase
    · have hdata : 4 ≤ (p.drop SIZEOF_DNS_ANSWER).length := by
        rw [← Nat.not_lt, length_drop_lt]
        exact Nat.not_lt.mpr hfour
      rw [answerLoop_addr hskip hle haddr, answerLoop_addr hskip' hle' (by rwa [hhdr]), hhdr,
        List.drop_append_of_le_length hle, addrAt_append behind hdata, List.length_append,
        if_neg (Nat.not_lt.mpr hdata), if_neg (Nat.not_lt.mpr (hdata.trans (Nat.le_add_right _ _)))]
    · rw [answerLoop_other hskip hle haddr, answerLoop_other hskip' hle' (by rwa [hhdr]), hhdr]
      obtain rfl | hdrop := hrest.drop_append behind
      · rfl
      · rw [hdrop]
        exact ih hrest

end answers

variable {s s' : Resolver} {i : Index} {msg : List UInt8} {name : CString}

theorem not_sound_iff : ¬ Sound msg ↔ (dnsHdr msg).flags1 &&& DNS_FLAG1_RESPONSE = 0 ∨
    (dnsHdr msg).flags2 &&& DNS_FLAG2_ERR_MASK ≠ 0 ∨ (dnsHdr msg).numquestions ≠ 1 := by
  constructor
  · intro h
    by_contra hnot
    obtain ⟨hresponse, hrest⟩ := not_or.mp hnot
    obtain ⟨herr, hquestions⟩ := not_or.mp hrest
    exact h ⟨hresponse, not_not.mp herr, not_not.mp hquestions⟩
  · rintro (h | h | h) hs
    · exact hs.response h
    · exact h hs.noError
    · exact h hs.questions

theorem dnsAnswer_of_not_sound (h : ¬ Sound msg) (behind : Behind) :
    dnsAnswer name msg behind = some none :=
  if_pos (not_sound_iff.mp h)

theorem dnsAnswer_of_sound (h : Sound msg) (behind : Behind) :
    dnsAnswer name msg behind =
      (dnsCompareName (name.1 ++ 0 :: behind.name) (question (msg ++ behind.msg))).bind fun differ =>
        if differ ≠ 0 then some none
        else (dnsParseName (question (msg ++ behind.msg))).bind fun p =>
          answerLoop (dnsHdr msg).numanswers (p.drop SIZEOF_DNS_QUERY) :=
  if_neg fun hnot => not_sound_iff.mpr hnot h

theorem dnsAnswer_nothing (h : Sound msg) :
    dnsAnswer name msg nothing =
      (dnsCompareName (name.1 ++ [0]) (question msg)).bind fun differ =>
        if differ ≠ 0 then some none
        else (dnsParseName (question msg)).bind fun p =>
          answerLoop (dnsHdr msg).numanswers (p.drop SIZEOF_DNS_QUERY) := by
  have hmsg : msg ++ nothing.msg = msg := List.append_nil msg
  rw [dnsAnswer_of_sound h, hmsg]
  rfl

theorem dnsAnswer_matches {p : List UInt8} (h : Sound msg)
    (hmatch : Matches (name.1 ++ [0]) (question msg)) (hskip : Skips (question msg) p) :
    dnsAnswer name msg nothing = answerLoop (dnsHdr msg).numanswers (p.drop SIZEOF_DNS_QUERY) := by
  rw [dnsAnswer_nothing h, dnsCompareName_of_matches hmatch, dnsParseName_of_skips hskip]
  rfl

theorem dnsAnswer_differs (h : Sound msg) (hdiff : Differs (name.1 ++ [0]) (question msg)) :
    dnsAnswer name msg nothing = some none := by
  rw [dnsAnswer_nothing h, dnsCompareName_of_differs hdiff]
  rfl

theorem inBounds_of_isSome (hs : Sound msg) (h : (dnsAnswer name msg nothing).isSome) :
    InBounds name msg := by
  have hcompare : (dnsCompareName (name.1 ++ [0]) (question msg)).isSome := by
    rw [dnsAnswer_nothing hs] at h
    exact Option.isSome_of_isSome_bind h
  refine ⟨dnsCompareName_isSome.mp hcompare, fun hmatch => ?_⟩
  rw [dnsAnswer_nothing hs, dnsCompareName_of_matches hmatch] at h
  have hparse : (dnsParseName (question msg)).isSome := Option.isSome_of_isSome_bind h
  obtain ⟨p, hp⟩ := Option.isSome_iff_exists.mp hparse
  have hskip := skips_of_dnsParseName hp
  refine ⟨p, hskip, answerLoop_isSome.mp ?_⟩
  rw [hp] at h
  exact h

theorem dnsAnswer_isSome : (dnsAnswer name msg nothing).isSome ↔ (Sound msg → InBounds name msg) := by
  by_cases hs : Sound msg
  · refine ⟨fun h _ => inBounds_of_isSome hs h, fun h => ?_⟩
    obtain ⟨hmatch | hdiff, hanswers⟩ := h hs
    · obtain ⟨p, hskip, h⟩ := hanswers hmatch
      rw [dnsAnswer_matches hs hmatch hskip]
      exact answerLoop_isSome.mpr h
    · rw [dnsAnswer_differs hs hdiff]
      rfl
  · rw [dnsAnswer_of_not_sound hs]
    exact ⟨fun _ h => absurd h hs, fun _ => rfl⟩

theorem InBounds.question_append (h : InBounds name msg) (behind : List UInt8) :
    question (msg ++ behind) = question msg ++ behind := by
  have hsome := dnsCompareName_isSome.mpr h.compared
  have hlen : SIZEOF_DNS_HDR ≤ msg.length := by
    by_contra hlt
    rw [question, List.drop_of_length_le (Nat.le_of_not_le hlt)] at hsome
    cases hsome
  exact List.drop_append_of_le_length hlen

/-- What stands behind the message and the name is not read. -/
theorem dnsAnswer_behind (h : Sound msg → InBounds name msg) (behind : Behind) :
    dnsAnswer name msg behind = dnsAnswer name msg nothing := by
  by_cases hs : Sound msg
  · have hq := (h hs).question_append behind.msg
    have hname : name.1 ++ 0 :: behind.name = (name.1 ++ [0]) ++ behind.name := by simp
    obtain ⟨hmatch | hdiff, hanswers⟩ := h hs
    · obtain ⟨p, hskip, hans⟩ := hanswers hmatch
      obtain ⟨p', hskip', hp'⟩ := hskip.append behind.msg
      rw [dnsAnswer_matches hs hmatch hskip, dnsAnswer_of_sound hs, hq, hname,
        dnsCompareName_of_matches (hmatch.append _ _)]
      change (dnsParseName _).bind _ = _
      rw [dnsParseName_of_skips hskip']
      change answerLoop _ _ = _
      obtain hzero | hdrop := hans.skip_append hp'
      · rw [hzero]
        rfl
      · rw [hdrop]
        exact answerLoop_append hans behind.msg
    · rw [dnsAnswer_differs hs hdiff, dnsAnswer_of_sound hs, hq, hname,
        dnsCompareName_of_differs (hdiff.append _ _)]
      rfl
  · rw [dnsAnswer_of_not_sound hs, dnsAnswer_of_not_sound hs]

/-- The response has an address for the name, as far as the module can tell. -/
def HasAddr (name : CString) (msg : List UInt8) (behind : Behind) (ttl : UInt32) (ipaddr : IpAddr) :
    Prop :=
  Sound msg ∧ Matches (name.1 ++ 0 :: behind.name) (question (msg ++ behind.msg)) ∧
    ∃ p, Skips (question (msg ++ behind.msg)) p ∧
      Holds (dnsHdr msg).numanswers (p.drop SIZEOF_DNS_QUERY) ttl ipaddr

theorem dnsAnswer_eq_some {behind : Behind} {ttl : UInt32} {ipaddr : IpAddr} :
    dnsAnswer name msg behind = some (some (ttl, ipaddr)) ↔ HasAddr name msg behind ttl ipaddr := by
  constructor
  · intro h
    have hs : Sound msg := by
      by_contra hs
      rw [dnsAnswer_of_not_sound hs] at h
      cases h
    rw [dnsAnswer_of_sound hs] at h
    obtain ⟨differ, hcompare, h⟩ := Option.bind_eq_some_iff.mp h
    split at h
    · cases h
    · next hzero =>
      obtain ⟨p, hparse, h⟩ := Option.bind_eq_some_iff.mp h
      rw [not_not.mp hzero] at hcompare
      exact ⟨hs, dnsCompareName_eq_zero.mp hcompare, p, skips_of_dnsParseName hparse,
        holds_of_answerLoop h⟩
  · rintro ⟨hs, hmatch, p, hskip, h⟩
    rw [dnsAnswer_of_sound hs, dnsCompareName_of_matches hmatch, dnsParseName_of_skips hskip]
    exact answerLoop_of_holds h

/-! ### No fault but the assertion on the server -/

theorem dnsSend_ne_bounds (s : Resolver) (numdns : ℕ) : dnsSend s numdns ≠ .error .bounds := by
  rw [dnsSend]
  split
  · exact fun h => nomatch h
  · exact fun h => nomatch h

theorem checkNew_ne_bounds (s : Resolver) (i : Index) : checkNew s i ≠ .error .bounds := by
  intro h
  obtain h | ⟨u, -, h⟩ := bind_error h
  · exact dnsSend_ne_bounds _ _ h
  · cases h

theorem dnsEnqueue_ne_bounds (s : Resolver) (c : Call) : dnsEnqueue s c ≠ .error .bounds := by
  intro h
  rw [dnsEnqueue] at h
  split at h
  · cases h
  · obtain h | ⟨s', -, h⟩ := bind_error h
    · exact checkNew_ne_bounds _ _ h
    · cases h

theorem runCall_ne_bounds (s : Resolver) (c : Call) : runCall s c ≠ .error .bounds := by
  intro hrun
  have h := map_error hrun
  rw [dnsGethostbyname] at h
  dsimp only at h
  generalize (if ipaddrAddr c.hostname.1 = IPADDR_NONE then _ else _) = ipaddr at h
  split at h
  · cases h
  · by_cases haddr : ipaddr = IPADDR_NONE
    · exact dnsEnqueue_ne_bounds s c ((if_neg (not_not.mpr haddr)).symm.trans h)
    · cases (if_pos haddr).symm.trans h

theorem runCalls_ne_bounds (s : Resolver) (calls : List Call) : runCalls s calls ≠ .error .bounds := by
  intro h
  obtain ⟨s₁, c, -, hc⟩ := foldlM_error h
  exact runCall_ne_bounds s₁ c hc

theorem callFound_ne_bounds (s : Resolver) (i : Index) (ipaddr : Option IpAddr)
    (calls : List Call) : callFound s i ipaddr calls ≠ .error .bounds := by
  rw [callFound]
  split
  · exact fun h => nomatch h
  · exact runCalls_ne_bounds _ calls

theorem finish_bounds (calls : List Call) (r : Option (Option (UInt32 × IpAddr))) :
    finish s i calls r = .error .bounds ↔ r = none := by
  constructor
  · intro h
    cases r with
    | none => rfl
    | some r =>
      cases r with
      | none =>
        obtain h | ⟨s', -, h⟩ := bind_error h
        · exact absurd h (callFound_ne_bounds _ _ _ _)
        · cases h
      | some r => exact absurd h (callFound_ne_bounds _ _ _ _)
  · rintro rfl
    rfl

/-- `dns_recv` reads nothing behind the message and nothing behind a stored name exactly when the
comparison and the answers lie in the message; what stands there then makes no difference. -/
theorem dns_recv_in_bounds_iff (s : Resolver) (msg : List UInt8) (calls : List Call) :
    (dnsRecv s msg nothing calls ≠ .error .bounds ↔
      ∀ i, Processed s i msg → Sound msg → InBounds (s.table i).name msg) ∧
    ((∀ i, Processed s i msg → Sound msg → InBounds (s.table i).name msg) →
      ∀ behind, dnsRecv s msg behind calls = dnsRecv s msg nothing calls) := by
  by_cases hproc : ∃ i, Processed s i msg
  · obtain ⟨i, hproc⟩ := hproc
    refine ⟨?_, fun h behind => ?_⟩
    · rw [hproc.exec, Ne, finish_bounds, ← Ne, Option.ne_none_iff_isSome, dnsAnswer_isSome]
      refine ⟨fun h j hj => ?_, fun h => h i hproc⟩
      obtain rfl : i = j := Fin.ext (hproc.id.symm.trans hj.id)
      exact h
    · rw [hproc.exec, hproc.exec, dnsAnswer_behind (h i hproc)]
  · have hdrop : ∀ i, ¬ Processed s i msg := fun i hi => hproc ⟨i, hi⟩
    refine ⟨⟨fun _ i hi => absurd hi (hdrop i), fun _ => ?_⟩, fun _ behind => ?_⟩
    · rw [dnsRecv_dropped hdrop]
      exact fun h => nomatch h
    · rw [dnsRecv_dropped hdrop, dnsRecv_dropped hdrop]

/-! ### Messages that are read beyond their end -/

def emptyEntry : Entry := ⟨.unused, 0, 0, 0, 0, 0, 0, ⟨[], by decide⟩, 0, none, 0, 0⟩

/-- Nothing in the table, and the default server. -/
def emptyResolver : Resolver :=
  ⟨0, fun _ => emptyEntry, Function.update (fun _ => 0) 0 0xd043dede#32, [], 0, []⟩

theorem emptyResolver_start : emptyResolver.Start := ⟨fun _ => rfl, rfl, rfl, rfl⟩

/-- "a" -/
def nameA : CString := ⟨[0x61], by decide⟩

/-- The first entry asks for "a". -/
def askingResolver : Resolver :=
  emptyResolver.setEntry ⟨0, tableSize_pos⟩ { emptyEntry with state := .asking, tmr := 1, name := nameA }

/-- A response to the request 0, with one question and no error. -/
def responseHdr (nanswers : UInt8) : List UInt8 := [0, 0, 0x80, 0, 0, 1, 0, nanswers, 0, 0, 0, 0]

/-- Two answers, the first of which has a length of 65535. -/
def longAnswer : List UInt8 :=
  responseHdr 2 ++ [1, 0x61, 0, 0, 1, 0, 1] ++ [0xc0, 0x0c, 0, 5, 0, 1, 0, 0, 0, 0, 0xff, 0xff]

/-- The question is for "a.b". -/
def longQuestion : List UInt8 :=
  responseHdr 0 ++ [1, 0x61, 1, 0x62, 0, 0, 1, 0, 1] ++ [0, 0, 0, 0, 0]

/-- An answer is read behind the message; and the query behind its NUL. -/
theorem dns_recv_overruns :
    dnsRecv askingResolver longAnswer nothing [] = .error .bounds ∧
    dnsRecv askingResolver longQuestion nothing [] = .error .bounds ∧
    dnsCompareName (nameA.1 ++ [0]) (question longQuestion) = none :=
  ⟨rfl, rfl, rfl⟩

end QuietLwip.Dns
