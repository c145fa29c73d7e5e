import QuietLwip.Arp.Moves

/-!
# The functions of the ARP module as sequences of moves

Each function, called on a table whose entries are sound, fails none of its assertions and is a
sequence of moves. AutoIP and the clean-up of an interface only drop packets.
-/

namespace QuietLwip.Arp

open Buffers Ip QuietLwip.Transition

variable {own : Prop} {w w' : World}

/-! ### The table -/

theorem etharpTmr_moves (w : World) : Moves own w (etharpTmr w) :=
  foldl_trans (fun w i => .single (.tmr w i)) _ w

theorem etharpCleanupNetif_drops (w : World) (n : ℕ) : Drops w (etharpCleanupNetif w n) := by
  apply foldl_trans
  intro w i
  rw [cleanupEntry]
  split
  · exact .single (.free w i)
  · exact .refl

section search

variable {table : Index → Entry} {ip : IpAddr} {l : List Index} {i : Index} {c c' : Candidates}

theorem search_inl (h : search table ip l c = .inl i) :
    (table i).state ≠ .empty ∧ (table i).ipaddr = ip := by
  induction l generalizing c with
  | nil => cases h
  | cons j l ih =>
    rw [search] at h
    split at h
    · exact ih h
    · next hstate =>
      split at h
      · next hip =>
        cases h
        exact ⟨hstate, hip.symm⟩
      · exact ih h

theorem search_inr (h : search table ip l c = .inr c') :
    ∀ i ∈ l, (table i).state ≠ .empty → (table i).ipaddr ≠ ip := by
  induction l generalizing c with
  | nil => exact fun _ hi => absurd hi List.not_mem_nil
  | cons j l ih =>
    rw [search] at h
    intro i hi hstate
    obtain rfl | hi := List.mem_cons.mp hi
    · rw [if_neg hstate] at h
      split at h
      · cases h
      · next hip => exact fun heq => hip heq.symm
    · split at h
      · exact ih h i hi hstate
      · split at h
        · cases h
        · exact ih h i hi hstate

/-- The candidates are what they are remembered for. -/
structure Candidates.Fit (c : Candidates) (table : Index → Entry) : Prop where
  empty : ∀ i, c.empty = some i → (table i).state = .empty
  oldStable : ∀ i, c.oldStable = some i → (table i).state ≠ .pending

theorem Candidates.Fit.note (h : c.Fit table) (j : Index) : (c.note j (table j)).Fit table := by
  rw [Candidates.note]
  split
  · constructor
    · split <;> split <;> exact h.empty
    · split <;> split <;> exact h.oldStable
  · next hstate =>
    split
    · exact h
    · split
      · refine ⟨h.empty, fun i hi => ?_⟩
        cases hi
        exact hstate
      · exact h

theorem search_fit (h : search table ip l c = .inr c') (hc : c.Fit table) : c'.Fit table := by
  induction l generalizing c with
  | nil =>
    cases h
    exact hc
  | cons j l ih =>
    rw [search] at h
    split at h
    · next hempty =>
      apply ih h
      split
      · refine ⟨fun i hi => ?_, hc.oldStable⟩
        cases hi
        exact hempty
      · exact hc
    · split at h
      · cases h
      · exact ih h (hc.note j)

end search

/-- The slot that `etharp_find_entry` returns for an address. -/
structure World.Found (w' w : World) (ip : IpAddr) (i : Index) : Prop where
  ipaddr : (w'.table i).ipaddr = ip
  alone : w'.Alone i
  fresh : (w'.table i).state = .empty → (w'.table i).ctime = 0
  -- a packet in it is one that waited for the address
  held : ∀ h, (w'.table i).q = some h → w' = w

/-- An empty slot is set up for an address that no entry has. -/
theorem claim_found (own : Prop) {i : Index} (ip : IpAddr) (hempty : (w.table i).state = .empty)
    (hq : (w.table i).q = none)
    (hnew : ∀ j, j ≠ i → (w.table j).state ≠ .empty → (w.table j).ipaddr ≠ ip) :
    ∃ w', w.claim i ip = .ok (w', some i) ∧ Move own w w' ∧ w'.netif = w.netif ∧
      ∀ w₀, w'.Found w₀ ip i := by
  refine ⟨_, if_pos hempty, .claim w i ip hempty, rfl, fun w₀ => ⟨?_, ?_, ?_, ?_⟩⟩
  · rw [World.setEntry_self]
  · intro j hj hstate
    rw [World.setEntry_of_ne _ _ _ _ hj] at hstate ⊢
    rw [World.setEntry_self]
    exact hnew j hj hstate
  · intro _
    rw [World.setEntry_self]
  · intro h hh
    rw [World.setEntry_self, hq] at hh
    cases hh

theorem World.Sound.held_none (hs : w.Sound) {i : Index} (h : (w.table i).state ≠ .pending) :
    (w.table i).q = none := by
  by_contra hq
  exact h ((hs.entry i).queue hq)

/-- No stable entry owns a packet, so that one is recycled as it is. -/
theorem recycle_ok (hs : w.Sound) {c : Candidates} (hc : c.Fit w.table) :
    ∃ r, recycle w c = .ok r := by
  rw [recycle]
  split
  · next i hi =>
    rw [hs.held_none (hc.oldStable i hi)]
    exact ⟨_, rfl⟩
  · exact ⟨_, rfl⟩
  · exact ⟨_, rfl⟩
  · exact ⟨_, rfl⟩

theorem etharpFindEntry_spec (own : Prop) (hs : w.Sound) (ip : IpAddr) (flags : FindFlags) :
    ∃ w' r, etharpFindEntry w ip flags = .ok (w', r) ∧ Moves own w w' ∧ w'.netif = w.netif ∧
      ∀ i, r = some i → w'.Found w ip i := by
  rw [etharpFindEntry]
  split
  · next i hi =>
    obtain ⟨hstate, hip⟩ := search_inl hi
    refine ⟨w, some i, rfl, .refl, rfl, fun j hj => ?_⟩
    cases hj
    exact ⟨hip, hs.alone i hstate, fun h => absurd h hstate, fun _ _ => rfl⟩
  · next c hc =>
    have hnew : ∀ j, (w.table j).state ≠ .empty → (w.table j).ipaddr ≠ ip :=
      fun j => search_inr hc j (List.mem_finRange j)
    have hfit : c.Fit w.table := by
      apply search_fit hc
      constructor <;> exact fun i hi => nomatch hi
    have hnone : ∀ {w'' : World} (i : Index), (none : Option Index) = some i → w''.Found w ip i :=
      fun i hi => nomatch hi
    split
    · exact ⟨w, none, rfl, .refl, rfl, hnone⟩
    · split
      · next i hi =>
        have hempty := hfit.empty i hi
        have hq : (w.table i).q = none := by
          apply hs.held_none
          rw [hempty]
          decide
        obtain ⟨w', hw', hm, hnet, hfound⟩ :=
          claim_found own ip hempty hq fun j _ => hnew j
        refine ⟨w', some i, hw', .single hm, hnet, fun j hj => ?_⟩
        cases hj
        exact hfound w
      · obtain ⟨r, hr⟩ := recycle_ok hs hfit
        rw [hr]
        cases r with
        | none => exact ⟨w, none, rfl, .refl, rfl, hnone⟩
        | some i =>
          obtain ⟨w', hw', hm, hnet, hfound⟩ :=
            claim_found own (w := etharpFreeEntry w i) (i := i) ip
              (by rw [etharpFreeEntry_self]) (by rw [etharpFreeEntry_self]) (by
                intro j hj hstate
                rw [etharpFreeEntry_of_ne w i hj] at hstate ⊢
                exact hnew j hstate)
          have hmoves : Moves own w w' := (Relation.ReflTransGen.single (.drop (.free w i))).tail hm
          refine ⟨w', some i, hw', hmoves, ?_, fun j hj => ?_⟩
          · rw [hnet, etharpFreeEntry_netif]
          · cases hj
            exact hfound w

/-- The packets that wait for the address are for the interface `n`. -/
def World.Waits (w : World) (n : ℕ) (ip : IpAddr) : Prop :=
  ∀ i h, (w.table i).q = some h → (w.table i).ipaddr = ip → h.netif = n

theorem etharpUpdateArpEntry_spec (own : Prop) (hs : w.Sound) {n : ℕ} {ip : IpAddr} (eth : EthAddr)
    (flags : FindFlags) (hown : own → w.Waits n ip) :
    ∃ w' r, etharpUpdateArpEntry w n ip eth flags = .ok (w', r) ∧ Moves own w w' ∧
      w'.netif = w.netif := by
  rw [etharpUpdateArpEntry]
  split
  · exact ⟨w, .arg, rfl, .refl, rfl⟩
  · obtain ⟨w₁, r, hr, hm, hnet, hfound⟩ := etharpFindEntry_spec own hs ip flags
    rw [hr]
    cases r with
    | none => exact ⟨w₁, .mem, rfl, hm, hnet⟩
    | some i =>
      have hi := hfound i rfl
      have hstate : (if flags.staticEntry then EtharpState.static else .stable).isStable := by
        cases flags.staticEntry <;> rfl
      have hsend : own → ∀ h, (w₁.table i).q = some h → h.netif = n := by
        intro ho h hh
        have hsame := hi.held h hh
        rw [hsame] at hh
        apply hown ho i h hh
        rw [← hsame]
        exact hi.ipaddr
      refine ⟨_, .ok, rfl, hm.tail (.settle w₁ n i eth hstate hi.alone hsend), ?_⟩
      rw [settle_netif, hnet]

theorem etharpAddStaticEntry_spec (hs : w.Sound) {route : Option ℕ} {ip : IpAddr} (eth : EthAddr)
    (hown : own → ∀ n, route = some n → w.Waits n ip) :
    ∃ w' r, etharpAddStaticEntry w route ip eth = .ok (w', r) ∧ Moves own w w' := by
  cases route with
  | none => exact ⟨w, .rte, rfl, .refl⟩
  | some n =>
    obtain ⟨w', r, hr, hm, -⟩ :=
      etharpUpdateArpEntry_spec own hs eth ETHARP_FLAG_STATIC_ENTRY fun ho => hown ho n rfl
    exact ⟨w', r, hr, hm⟩

theorem etharpRemoveStaticEntry_spec (own : Prop) (hs : w.Sound) (ip : IpAddr) :
    ∃ w' r, etharpRemoveStaticEntry w ip = .ok (w', r) ∧ Moves own w w' := by
  obtain ⟨w₁, r, hr, hm, -⟩ := etharpFindEntry_spec own hs ip ETHARP_FLAG_FIND_ONLY
  rw [etharpRemoveStaticEntry, hr]
  cases r with
  | none => exact ⟨w₁, .mem, rfl, hm⟩
  | some i =>
    change ∃ w' r, (if (w₁.table i).state ≠ .static then Except.ok (w₁, Err.arg)
      else Except.ok (etharpFreeEntry w₁ i, Err.ok)) = .ok (w', r) ∧ Moves own w w'
    split
    · exact ⟨w₁, .arg, rfl, hm⟩
    · exact ⟨_, .ok, rfl, hm.tail (.drop (.free w₁ i))⟩

/-! ### Sending -/

theorem etharpRaw_drops (tx : Tx) (n : ℕ) (ethsrc ethdst hwsrc : EthAddr) (ipsrc : IpAddr)
    (hwdst : EthAddr) (ipdst : IpAddr) (opcode : ℕ) :
    Drops w (etharpRaw w tx n ethsrc ethdst hwsrc ipsrc hwdst ipdst opcode).1 := by
  rw [etharpRaw]
  split
  · exact .refl
  · exact drops_emit w rfl

theorem etharpRaw_table (tx : Tx) (n : ℕ) (ethsrc ethdst hwsrc : EthAddr) (ipsrc : IpAddr)
    (hwdst : EthAddr) (ipdst : IpAddr) (opcode : ℕ) :
    (etharpRaw w tx n ethsrc ethdst hwsrc ipsrc hwdst ipdst opcode).1.table = w.table := by
  rw [etharpRaw]
  split <;> rfl

theorem etharpRequest_drops (tx : Tx) (n : ℕ) (ip : IpAddr) :
    Drops w (etharpRequest w tx n ip).1 := etharpRaw_drops ..

theorem etharpRequest_table (tx : Tx) (n : ℕ) (ip : IpAddr) :
    (etharpRequest w tx n ip).1.table = w.table := etharpRaw_table ..

/-- `q` is one packet, not a packet queue: no pbuf but the last one ends a packet. -/
def OnePacket : List Pbuf → Prop
  | [] => True
  | p :: ps => (ps ≠ [] → p.len ≠ p.totLen) ∧ OnePacket ps

theorem copyNeeded_cases (q : List Pbuf) :
    (¬ OnePacket q ∧ copyNeeded q = .error .etharp) ∨ ∃ r, copyNeeded q = .ok r := by
  induction q with
  | nil => exact .inr ⟨none, rfl⟩
  | cons p ps ih =>
    rw [copyNeeded]
    split
    · next hp => exact .inl ⟨fun h => h.1 hp.2 hp.1, rfl⟩
    · split
      · exact .inr ⟨_, rfl⟩
      · exact ih.imp_left fun hq => ⟨fun h => hq.1 h.2, hq.2⟩

/-- A call that moves the table if it returns, and fails an assertion of `etharp.c` only where the
packet is not one packet. -/
inductive Runs (own one : Prop) (w : World) : Except Fault World → Prop
  | etharp (h : ¬ one) : Runs own one w (.error .etharp)
  | called : Runs own one w (.error .called)
  | ok {w' : World} (hm : Moves own w w') : Runs own one w (.ok w')

theorem copyLoop_cases (toLen : ℕ) (q : List Pbuf) (offsetTo : ℕ) :
    copyLoop toLen offsetTo q = .error .called ∨ ∃ data, copyLoop toLen offsetTo q = .ok data := by
  induction q generalizing offsetTo with
  | nil => exact .inr ⟨[], rfl⟩
  | cons p ps ih =>
    rw [copyLoop]
    split
    · exact .inl rfl
    · split
      · exact .inl rfl
      · obtain h | ⟨data, h⟩ := ih (offsetTo + p.len)
        · rw [h]
          exact .inl rfl
        · rw [h]
          exact .inr ⟨_, rfl⟩

theorem pbufCopy_cases (len : ℕ) (q : List Pbuf) :
    pbufCopy len q = .error .called ∨ ∃ data, pbufCopy len q = .ok data := by
  rw [pbufCopy]
  split
  · exact .inl rfl
  · exact copyLoop_cases len q 0

/-- What `takeOver` may answer. -/
inductive TakenOver (q : List Pbuf) : Except Fault (Option Packet) → Prop
  | etharp (h : ¬ OnePacket q) : TakenOver q (.error .etharp)
  | called : TakenOver q (.error .called)
  | noMemory : TakenOver q (.ok none)
  | kept {p : Packet} (h : Keeps q p) : TakenOver q (.ok (some p))

theorem takeOver_cases (copyAt : Option ℕ) (q : List Pbuf) : TakenOver q (takeOver copyAt q) := by
  rw [takeOver]
  obtain ⟨hone, hr⟩ | ⟨r, hr⟩ := copyNeeded_cases q
  · rw [hr]
    exact .etharp hone
  · rw [hr]
    cases r with
    | none => exact .kept .byRef
    | some len =>
      cases copyAt with
      | none => exact .noMemory
      | some addr =>
        change TakenOver q ((fun data => some (Packet.copy addr data)) <$> pbufCopy len q)
        obtain hd | ⟨data, hd⟩ := pbufCopy_cases len q
        · rw [hd]
          exact .called
        · rw [hd]
          exact .kept (.copy hd)

theorem Runs.after {one : Prop} {r : Except Fault World} (hm : Moves own w w')
    (h : Runs own one w' r) : Runs own one w r := by
  cases h with
  | etharp h => exact .etharp h
  | called => exact .called
  | ok hm' => exact .ok (hm.trans hm')

theorem Runs.weaken {one one' : Prop} {r : Except Fault World} (h : Runs own one w r)
    (himp : one' → one) : Runs own one' w r := by
  cases h with
  | etharp h => exact .etharp fun h' => h (himp h')
  | called => exact .called
  | ok hm => exact .ok hm

theorem markPending_moves (n : ℕ) {i : Index} {ip : IpAddr} {w₀ : World} (hi : w.Found w₀ ip i) :
    Moves own w (w.markPending n i) := by
  by_cases hempty : (w.table i).state = .empty
  · exact (Move.mark w n i (hi.fresh hempty) hi.alone).moves
  · rw [World.markPending, if_neg hempty]

theorem markPending_state (n : ℕ) (i : Index) : ((w.markPending n i).table i).state ≠ .empty := by
  rw [World.markPending]
  split
  · rw [World.setEntry_self]
    intro h
    cases h
  · assumption

theorem queryRequest_drops (env : QueryEnv) (n : ℕ) (i : Index) (ip : IpAddr) (noPacket : Bool) :
    Drops w (queryRequest w env n i ip noPacket).1 := by
  rw [queryRequest]
  split
  · exact etharpRequest_drops ..
  · exact .refl

theorem queryRequest_table (env : QueryEnv) (n : ℕ) (i : Index) (ip : IpAddr) (noPacket : Bool) :
    (queryRequest w env n i ip noPacket).1.table = w.table := by
  rw [queryRequest]
  split
  · exact etharpRequest_table ..
  · rfl

theorem setHint_drops (i : Index) : Drops w (w.setHint i) := drops_other rfl rfl rfl

theorem queryPacket_runs (env : QueryEnv) (n : ℕ) {i : Index} (q : List Pbuf)
    (hused : (w.table i).state ≠ .empty) :
    Runs own (OnePacket q) w (Prod.fst <$> queryPacket w env n i q) := by
  rw [queryPacket]
  split
  · have hsent : Drops w ((w.setHint i).emit (.output n (w.table i).ethaddr q)) :=
      (setHint_drops i).trans (drops_emit _ rfl)
    exact .ok hsent.moves
  · next hstable =>
    have hpending : (w.table i).state = .pending := by
      by_contra hp
      exact hstable (EtharpState.isStable_iff.mpr ⟨hused, hp⟩)
    generalize hr : takeOver env.copyAt q = r
    have hcases := takeOver_cases env.copyAt q
    rw [hr] at hcases
    cases hcases with
    | etharp h => exact .etharp h
    | called => exact .called
    | noMemory => exact .ok .refl
    | kept hkeeps => exact .ok (Move.hold w n i hkeeps hpending).moves

theorem queryEntry_runs (env : QueryEnv) (n : ℕ) {i : Index} {ip : IpAddr} (q : Option (List Pbuf))
    {w₀ : World} (hi : w.Found w₀ ip i) :
    Runs own (∀ c, q = some c → OnePacket c) w (Prod.fst <$> queryEntry w env n i ip q) := by
  have hm : Moves own w (queryRequest (w.markPending n i) env n i ip q.isNone).1 :=
    (markPending_moves n hi).trans (queryRequest_drops ..).moves
  cases q with
  | none => exact .ok hm
  | some c =>
    have hused : ((queryRequest (w.markPending n i) env n i ip (some c).isNone).1.table i).state ≠
        .empty := by
      rw [queryRequest_table]
      exact markPending_state n i
    exact ((queryPacket_runs env n c hused).weaken fun h => h c rfl).after hm

theorem etharpQuery_runs (hs : w.Sound) (env : QueryEnv) (n : ℕ) (ip : IpAddr)
    (q : Option (List Pbuf)) :
    Runs own (∀ c, q = some c → OnePacket c) w (Prod.fst <$> etharpQuery w env n ip q) := by
  rw [etharpQuery]
  split
  · exact .ok .refl
  · obtain ⟨w₁, r, hr, hm, -, hfound⟩ := etharpFindEntry_spec own hs ip ETHARP_FLAG_TRY_HARD
    rw [hr]
    cases r with
    | none => exact .ok hm
    | some i => exact .after hm (queryEntry_runs env n q (hfound i rfl))

theorem rerequest_moves (tx : Tx) (n : ℕ) (i : Index) : Moves own w (rerequest w tx n i) := by
  rw [rerequest]
  split
  · next h =>
    have hm : Moves own w (etharpRequest w tx n (w.table i).ipaddr).1 :=
      (etharpRequest_drops ..).moves
    have htable : (etharpRequest w tx n (w.table i).ipaddr).1.table = w.table :=
      etharpRequest_table ..
    simp only
    split
    · have hstable : ((etharpRequest w tx n (w.table i).ipaddr).1.table i).state = .stable := by
        rw [htable]
        exact h.1
      have hmove : Move own _ _ := Move.rerequest _ i hstable
      rw [htable] at hmove
      exact hm.tail hmove
    · exact hm
  · exact .refl

theorem stableEntry_isStable {ip : IpAddr} {i : Index} (h : stableEntry w ip = some i) :
    (w.table i).state.isStable := by
  have hi := List.find?_some h
  exact (Bool.and_eq_true_iff.mp hi).1

theorem etharpOutputToArpIndex_runs (env : QueryEnv) (n : ℕ) (q : List Pbuf) {i : Index}
    {one : Prop} (hi : (w.table i).state.isStable) :
    Runs own one w (Prod.fst <$> etharpOutputToArpIndex w env n q i) := by
  rw [etharpOutputToArpIndex, hi]
  exact .ok ((rerequest_moves ..).tail (.drop (.emit _ rfl)))

theorem OnePacket.congr {p p' : Pbuf} {ps : List Pbuf} (h : OnePacket (p :: ps))
    (hp : p'.len = p'.totLen → p.len = p.totLen) : OnePacket (p' :: ps) :=
  ⟨fun hne heq => h.1 hne (hp heq), h.2⟩

theorem moveHeader_len_eq {p : Pbuf} {inc : ℤ} {hlo : inc ≤ p.payload} {hhi : -inc ≤ p.len}
    (h : (p.moveHeader inc hlo hhi).len = (p.moveHeader inc hlo hhi).totLen) :
    p.len = p.totLen := by
  have hlen := p.lenLt
  have htot := p.totLt
  simp only [Pbuf.moveHeader, Word.u16, Word.wrapU] at h
  omega

/-- Making room for the Ethernet header adds the same to both lengths of the first pbuf. -/
theorem pbufHeader_onePacket {q q' : List Pbuf} {inc : ℤ} {u : ℕ} (h : OnePacket q)
    (hq : pbufHeader q inc = some (u, q')) : OnePacket q' := by
  cases q with
  | nil => cases hq
  | cons p ps =>
    simp only [pbufHeader] at hq
    split at hq
    · cases hq
      exact h
    · split at hq
      · split at hq
        · cases hq
          exact h.congr moveHeader_len_eq
        · cases hq
      · split at hq
        · split at hq
          · cases hq
            exact h.congr moveHeader_len_eq
          · cases hq
            exact h
        · split at hq
          · cases hq
            exact h.congr moveHeader_len_eq
          · cases hq
            exact h
        · cases hq
          exact h
        · cases hq
          exact h

theorem etharpOutput_runs (hs : w.Sound) (env : QueryEnv) (outside : ℕ → UInt8) (n : ℕ)
    (q : List Pbuf) (ip : IpAddr) :
    Runs own (OnePacket q) w (Prod.fst <$> etharpOutput w env outside n q ip) := by
  rw [etharpOutput]
  split
  · exact .called
  · exact .called
  · next p ps hhead =>
    split
    · exact .ok (drops_emit w rfl).moves
    · split
      · exact .ok (drops_emit w rfl).moves
      · split
        · exact .ok .refl
        · next hop _ =>
          split
          · next i hi =>
            apply Runs.after (setHint_drops i).moves
            have hstable : (w.table i).state.isStable := stableEntry_isStable hi
            exact etharpOutputToArpIndex_runs env n (p :: ps) hstable
          · apply (etharpQuery_runs hs env n hop (some (p :: ps))).weaken
            intro hq c hc
            cases hc
            exact pbufHeader_onePacket hq hhead
  · exact .ok .refl

/-! ### AutoIP, and received packets -/

theorem netifSetDown_drops (n : ℕ) : Drops w (netifSetDown w n) := by
  rw [netifSetDown]
  split
  · have hdown : Drops w (w.setNetif n { w.netif n with up := false }) :=
      drops_other rfl rfl rfl
    simp only
    split
    · exact hdown.trans (etharpCleanupNetif_drops _ n)
    · exact hdown
  · exact .refl

theorem setNetif_drops (n : ℕ) (netif : Netif) : Drops w (w.setNetif n netif) :=
  drops_other rfl rfl rfl

theorem autoipStartProbing_drops (n : ℕ) (autoip : Autoip) :
    Drops w (autoipStartProbing w n autoip) :=
  (drops_emit w rfl).trans (setNetif_drops ..)

theorem autoipStart_drops (alloc : Bool) (n : ℕ) : Drops w (autoipStart w alloc n).1 := by
  have hdown : Drops w ((netifSetDown w n).setNetif n
      { (netifSetDown w n).netif n with ipAddr := 0, netmask := 0, gw := 0 }) :=
    (netifSetDown_drops n).trans (setNetif_drops ..)
  rw [autoipStart]
  simp only
  split
  · split
    · exact hdown
    · exact hdown.trans (autoipStartProbing_drops ..)
  · exact hdown.trans (autoipStartProbing_drops ..)

theorem autoipNetworkChanged_drops (n : ℕ) : Drops w (autoipNetworkChanged w n) := by
  rw [autoipNetworkChanged]
  split
  · exact .refl
  · split
    · exact .refl
    · exact (netifSetDown_drops n).trans (autoipStartProbing_drops ..)

theorem autoipRestart_drops (n : ℕ) (autoip : Autoip) : Drops w (autoipRestart w n autoip) :=
  (setNetif_drops ..).trans (autoipStart_drops ..)

theorem autoipArpReply_drops (tx : Tx) (n : ℕ) (hdr : EtharpPacket) :
    Drops w (autoipArpReply w tx n hdr) := by
  rw [autoipArpReply]
  split
  · exact .refl
  · split
    · exact .refl
    · split
      · split
        · exact autoipRestart_drops ..
        · exact .refl
      · split
        · rw [autoipHandleArpConflict]
          split
          · exact autoipRestart_drops ..
          · exact (etharpRaw_drops ..).trans (setNetif_drops ..)
        · exact .refl

theorem netifSetUp_drops (tx : Tx) (n : ℕ) : Drops w (netifSetUp w tx n) := by
  rw [netifSetUp]
  simp only
  split
  · exact .refl
  · split
    · exact (setNetif_drops ..).trans (etharpRequest_drops ..)
    · exact setNetif_drops ..

theorem autoipBind_drops (tx : Tx) (n : ℕ) (ip : IpAddr) : Drops w (autoipBind w tx n ip) :=
  ((drops_emit w rfl).trans (setNetif_drops ..)).trans (netifSetUp_drops ..)

theorem tmrProbing_drops (tx : Tx) (n : ℕ) (autoip : Autoip) :
    Drops w (tmrProbing w tx n autoip) := by
  rw [tmrProbing]
  split
  · exact setNetif_drops ..
  · split
    · exact setNetif_drops ..
    · exact (etharpRaw_drops ..).trans (setNetif_drops ..)

theorem tmrAnnouncing_drops (tx : Tx) (n : ℕ) (autoip : Autoip) :
    Drops w (tmrAnnouncing w tx n autoip) := by
  have hsent : Drops w (if autoip.sentNum = 0 then autoipBind w tx n autoip.llipaddr
      else autoipArpAnnounce w tx n autoip.llipaddr) := by
    split
    · exact autoipBind_drops ..
    · exact etharpRaw_drops ..
  rw [tmrAnnouncing]
  split
  · exact setNetif_drops ..
  · simp only
    split
    · exact hsent.trans (setNetif_drops ..)
    · exact hsent.trans (setNetif_drops ..)

theorem autoipTmr_drops (tx : ℕ → Tx) : Drops w (autoipTmr w tx) := by
  refine (drops_emit w rfl).trans (foldl_trans (fun w n => ?_) _ _)
  rw [autoipTmrNetif]
  split
  · exact .refl
  · simp only
    split
    · exact tmrProbing_drops ..
    · exact tmrAnnouncing_drops ..
    · exact setNetif_drops ..
    · exact setNetif_drops ..

/-- What waits for an address after packets were dropped waited for it before. -/
theorem Drop.waits {n : ℕ} {ip : IpAddr} (h : Drop w w') (hw : w.Waits n ip) : w'.Waits n ip := by
  cases h with
  | free i =>
    intro j held hq hip
    obtain rfl | hj := eq_or_ne j i
    · rw [etharpFreeEntry_self] at hq
      cases hq
    · rw [etharpFreeEntry_of_ne w i hj] at hq hip
      exact hw j held hq hip
  | emit _ => exact hw
  | other htable _ _ =>
    intro j held hq hip
    rw [htable] at hq hip
    exact hw j held hq hip

theorem Drops.waits {n : ℕ} {ip : IpAddr} (h : Drops w w') (hw : w.Waits n ip) :
    w'.Waits n ip := by
  induction h with
  | refl => exact hw
  | tail _ hd ih => exact hd.waits ih

theorem Drops.sound (h : Drops w w') (hs : w.Sound) : w'.Sound := by
  have hm : Moves False w w' := h.moves
  exact hm.sound hs

/-- A packet on the interface `n`, from a host whose packets wait for that interface. -/
theorem etharpArpInput_spec (hs : w.Sound) (tx : Tx) {n len : ℕ} {hdr : EtharpPacket}
    (hown : own → (w.netif n).etharp ∧ SIZEOF_ETHARP_PACKET ≤ len ∧ hdr.wellFormed →
      w.Waits n hdr.sipaddr) :
    ∃ w', etharpArpInput w tx n len hdr = .ok w' ∧ Moves own w w' := by
  rw [etharpArpInput]
  split
  · next haccept =>
    have hreply : Drops w (autoipArpReply (w.emit (.arpInput n hdr)) tx n hdr) :=
      (drops_emit w rfl).trans (autoipArpReply_drops ..)
    rw [arpProcess]
    generalize autoipArpReply (w.emit (.arpInput n hdr)) tx n hdr = w₁ at hreply ⊢
    obtain ⟨w₂, r, hr, hm, -⟩ := etharpUpdateArpEntry_spec own (hreply.sound hs)
      hdr.shwaddr (if forUs (w₁.netif n) hdr then ETHARP_FLAG_TRY_HARD else ETHARP_FLAG_FIND_ONLY)
      fun ho => hreply.waits (hown ho haccept)
    have hall : Moves own w w₂ := hreply.moves.trans hm
    simp only [hr]
    change ∃ w', (if hdr.opcode = ARP_REQUEST ∧ forUs (w₁.netif n) hdr then Except.ok
      (w₂.emit (.arp n (arpReply (w₂.netif n) hdr) (tx.linkoutput = .ok))) else Except.ok w₂) =
        Except.ok w' ∧ Moves own w w'
    split
    · exact ⟨_, rfl, hall.tail (.drop (.emit w₂ rfl))⟩
    · exact ⟨_, rfl, hall⟩
  · exact ⟨w, rfl, .refl⟩

/-- The packets given are single packets. -/
def Op.OnePacket : Op → Prop
  | .query _ _ _ q => ∀ c, q = some c → Arp.OnePacket c
  | .output _ _ _ q _ => Arp.OnePacket q
  | _ => True

/-- The operation sends no packet by another interface than the one it was kept for. -/
def Op.Owns (w : World) : Op → Prop
  | .arpInput _ n len hdr =>
    (w.netif n).etharp ∧ SIZEOF_ETHARP_PACKET ≤ len ∧ hdr.wellFormed → w.Waits n hdr.sipaddr
  | .addStatic route ip _ => ∀ n, route = some n → w.Waits n ip
  | _ => True

/-- Every operation is a sequence of moves, and fails no assertion of `etharp.c` on one packet. -/
theorem Op.exec_runs (hs : w.Sound) {op : Op} (hown : own → op.Owns w) :
    Runs own op.OnePacket w (op.exec w) := by
  cases op with
  | arpInput tx n len hdr =>
    obtain ⟨w', hw', hm⟩ := etharpArpInput_spec hs tx hown
    rw [Op.exec, hw']
    exact .ok hm
  | query env n ip q => exact etharpQuery_runs hs env n ip q
  | output env outside n q ip => exact etharpOutput_runs hs env outside n q ip
  | etharpTmr => exact .ok (etharpTmr_moves w)
  | addStatic route ip eth =>
    obtain ⟨w', r, hr, hm⟩ := etharpAddStaticEntry_spec hs eth hown
    rw [Op.exec, hr]
    exact .ok hm
  | removeStatic ip =>
    obtain ⟨w', r, hr, hm⟩ := etharpRemoveStaticEntry_spec own hs ip
    rw [Op.exec, hr]
    exact .ok hm
  | cleanup n => exact .ok (etharpCleanupNetif_drops w n).moves
  | autoipStart alloc n => exact .ok (autoipStart_drops alloc n).moves
  | autoipNetworkChanged n => exact .ok (autoipNetworkChanged_drops n).moves
  | autoipTmr tx => exact .ok (autoipTmr_drops tx).moves
  | configure n netif netifs =>
    have hset : Drops w { w.setNetif n netif with netifList := netifs } := drops_other rfl rfl rfl
    exact .ok hset.moves

end QuietLwip.Arp
