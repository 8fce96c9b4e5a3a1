import Candyland.Gummyroll.Completion
import Candyland.ConcurrentMerkleTree.IndexBound

/-!
# The canopy is transparent

Two accounts get the same requests, one with a canopy and one without.  The one with a
canopy is sent the lower siblings of some earlier tree only, and what the canopy adds is
current already, so that the roll checks a proof that was never a proof of any tree.  The
replay makes up for that: both proofs end in the current one.
-/

namespace Candyland.Gummyroll

open ConcurrentMerkleTree

/-- An instruction whose root and proof a client takes from the tree of `age` updates
ago. -/
inductive Request (Node Pubkey : Type) where
  | replaceLeaf (authority : Pubkey) (previousLeaf newLeaf : Node) (index : UInt32) (age : ℕ)
  | append (authority appendAuthority : Pubkey) (leaf : Node)
  | insertOrAppend (authority : Pubkey) (leaf : Node) (index : UInt32) (age : ℕ)
  | verifyLeaf (leaf : Node) (index : UInt32) (age : ℕ)
  | transferAuthority (authority : Pubkey) (newAuthority newAppendAuthority : Option Pubkey)

namespace Request

variable {Node Pubkey : Type}

/-- The index is in the tree, and the root of the time is retained. -/
def Valid (D bufferSize : ℕ) : Request Node Pubkey → Prop
  | replaceLeaf _ _ _ index age => index.toNat < 2 ^ D ∧ age < bufferSize
  | append .. => True
  | insertOrAppend _ _ index age => index.toNat < 2 ^ D ∧ age < bufferSize
  | verifyLeaf _ index age => index.toNat < 2 ^ D ∧ age < bufferSize
  | transferAuthority .. => True

/-- The instruction that is sent after the writes `ws` to an account with a canopy of `c`
levels. -/
def instruction [NodeHash Node] (D c : ℕ) (ws : List (ℕ × Node)) :
    Request Node Pubkey → Instruction Node Pubkey
  | replaceLeaf authority previousLeaf newLeaf index age =>
    .replaceLeaf authority (MerkleTree.root hashv D (treeAfter (ws.drop age))) previousLeaf newLeaf
      index ((siblings D (treeAfter (ws.drop age)) index.toNat).take (D - c))
  | append authority appendAuthority leaf => .append authority appendAuthority leaf
  | insertOrAppend authority leaf index age =>
    .insertOrAppend authority (MerkleTree.root hashv D (treeAfter (ws.drop age))) leaf index
      ((siblings D (treeAfter (ws.drop age)) index.toNat).take (D - c))
  | verifyLeaf leaf index age =>
    .verifyLeaf (MerkleTree.root hashv D (treeAfter (ws.drop age))) leaf index
      ((siblings D (treeAfter (ws.drop age)) index.toNat).take (D - c))
  | transferAuthority authority newAuthority newAppendAuthority =>
    .transferAuthority authority newAuthority newAppendAuthority

theorem leaf_instruction [NodeHash Node] (request : Request Node Pubkey) (D c c' : ℕ)
    (ws : List (ℕ × Node)) :
    (request.instruction D c ws).leaf = (request.instruction D c' ws).leaf := by
  cases request <;> rfl

theorem Valid.below [NodeHash Node] {request : Request Node Pubkey} {D bufferSize : ℕ}
    (h : request.Valid D bufferSize) (c : ℕ) (ws : List (ℕ × Node)) :
    (request.instruction D c ws).IndexBelow D := by
  cases request with
  | replaceLeaf | insertOrAppend | verifyLeaf => exact h.1
  | append | transferAuthority => trivial

end Request

section Twins

variable {Node Pubkey : Type} [NodeHash Node] [DecidableEq Node] [DecidableEq Pubkey] [Build]
  {D B c : ℕ} [hB : BufferSize B]

/-- The same event but for the address. -/
def SameEvent (event event' : ChangeLogEvent Node Pubkey) : Prop :=
  event.path = event'.path ∧ event.seq = event'.seq ∧ event.index = event'.index

/-- The rolls are equal after the instruction, and the same was emitted. -/
def SameResult
    (res res' : Option (ChangeLogEvent Node Pubkey) × Account Node Pubkey D B) : Prop :=
  res.2.roll = res'.2.roll ∧ Option.Rel SameEvent res.1 res'.1

/-- The states of an account with a canopy of `c` levels and of one without that get the
same valid requests. -/
inductive TwinRun (c : ℕ) : AccountState Node Pubkey D B → AccountState Node Pubkey D B → Prop
  /-- The start. -/
  | init {canopied₀ plain₀ canopied plain : Account Node Pubkey D B}
      {authority appendAuthority : Pubkey} {slot slot' : ℕ}
      {event event' : ChangeLogEvent Node Pubkey}
      (hcanopied : canopied₀.Fresh c) (hplain : plain₀.Fresh 0)
      (h : canopied₀.initEmptyGummyroll authority appendAuthority slot = .ok (event, canopied))
      (h' : plain₀.initEmptyGummyroll authority appendAuthority slot' = .ok (event', plain)) :
      TwinRun c ⟨canopied, [], [event]⟩ ⟨plain, [], [event']⟩
  /-- A request. -/
  | step {canopied plain : AccountState Node Pubkey D B} (hrun : TwinRun c canopied plain)
      (request : Request Node Pubkey) (hvalid : request.Valid D plain.account.roll.bufferSize) :
      TwinRun c (canopied.step (request.instruction D c plain.writes))
        (plain.step (request.instruction D 0 plain.writes))

/-- What relates the two accounts. -/
structure TwinInv (c : ℕ) (canopied plain : Account Node Pubkey D B) (ws : List (ℕ × Node)) :
    Prop where
  canopied_inv : AccountInv c canopied ws
  plain_inv : AccountInv 0 plain ws
  roll_eq : canopied.roll = plain.roll
  authority_eq : canopied.header.authority = plain.header.authority
  append_eq : canopied.header.appendAuthority = plain.header.appendAuthority
  run : Run (fun _ c => c.IndexBelow D) plain.roll ws

/-- What one instruction preserves beside the two invariants. -/
structure Twins (res res' : Option (ChangeLogEvent Node Pubkey) × Account Node Pubkey D B) :
    Prop where
  same : SameResult res res'
  authority_eq : res.2.header.authority = res'.2.header.authority
  append_eq : res.2.header.appendAuthority = res'.2.header.appendAuthority

namespace TwinInv

variable {canopied plain : Account Node Pubkey D B} {ws : List (ℕ × Node)} {index : UInt32}
  {age : ℕ}

omit [DecidableEq Pubkey] [Build] in
/-- The proof that the canopy completes is checked like the full one. -/
theorem sameCheck [CollisionFree Node] (h : TwinInv c canopied plain ws)
    (hindex : index.toNat < 2 ^ D) (hage : age < plain.roll.bufferSize) :
    plain.roll.SameCheck (MerkleTree.root hashv D (treeAfter (ws.drop age))) index
      ((siblings D (treeAfter (ws.drop age)) index.toNat).take (D - c) ++
        (List.range' (D - c) c).map (MerkleTree.sibling hashv (treeAfter ws) index.toNat))
      (siblings D (treeAfter (ws.drop age)) index.toNat) := by
  have hc := h.canopied_inv.cached
  have hthree := h.plain_inv.three_le
  have hlen : (siblings D (treeAfter (ws.drop age)) index.toNat).length = D := by simp [siblings]
  have hguarded : Run (fun roll c => c.Guarded roll) plain.roll ws :=
    h.run.mono fun _ _ hbelow => .inr hbelow
  refine h.plain_inv.roll.sameCheck (by omega) hindex
    ⟨age, hage, h.plain_inv.roll.log_root hage⟩ (hguarded.noAlias hindex _) ?_ fun l hl => ?_
  · rw [List.length_append, List.length_take, List.length_map, List.length_range', hlen]
    omega
  · rw [List.getElem_append]
    split_ifs with hlt
    · left
      rw [List.getElem_take]
      simp [siblings]
    · right
      rw [List.getElem_map, List.getElem_range', List.length_take, hlen]
      congr 1
      rw [List.length_take, hlen] at hlt
      omega

omit [DecidableEq Pubkey] in
/-- Both accounts complete their proofs, and the proofs are checked alike. -/
theorem fill_agree [CollisionFree Node] [NonzeroHash Node] (h : TwinInv c canopied plain ws)
    (hindex : index.toNat < 2 ^ D) (hage : age < plain.roll.bufferSize) :
    let proof := siblings D (treeAfter (ws.drop age)) index.toNat
    Outcome.Agree (fun res res' =>
        CanopyInv D c (treeAfter ws) res.1.nodes ∧ res.1.trailing = 0 ∧
          CanopyInv D 0 (treeAfter ws) res'.1.nodes ∧ res'.1.trailing = 0 ∧
          plain.roll.SameCheck (MerkleTree.root hashv D (treeAfter (ws.drop age))) index
            res.2 res'.2)
      (fillInProofFromCanopy canopied.canopy canopied.header.maxDepth index (proof.take (D - c)))
      (fillInProofFromCanopy plain.canopy plain.header.maxDepth index (proof.take (D - 0))) := by
  intro proof
  obtain ⟨canopy, hinv, htrailing, hfill⟩ := fillInProofFromCanopy_eq h.canopied_inv.canopy
    h.canopied_inv.trailing h.canopied_inv.cached h.canopied_inv.depth_lt h.canopied_inv.depth_eq
    hindex (proof.take (D - c))
  obtain ⟨canopy', hinv', htrailing', hfill'⟩ := fillInProofFromCanopy_eq h.plain_inv.canopy
    h.plain_inv.trailing h.plain_inv.cached h.plain_inv.depth_lt h.plain_inv.depth_eq
    hindex (proof.take (D - 0))
  refine .of_eq hfill hfill' ⟨hinv, htrailing, hinv', htrailing', ?_⟩
  have hfull : proof.take (D - 0) ++ (List.range' (D - 0) 0).map
      (MerkleTree.sibling hashv (treeAfter ws) index.toNat) = proof := by
    simp [proof, siblings]
  rw [hfull]
  exact h.sameCheck hindex hage

omit [DecidableEq Pubkey] [Build] in
/-- One function on both rolls. -/
theorem apply_agree (h : TwinInv c canopied plain ws)
    {func func' : MerkleRoll Node D B → Outcome CMTError Node × MerkleRoll Node D B}
    (hfunc : func canopied.roll = func' plain.roll) :
    Outcome.Agree (fun res res' => res.2 = res'.2 ∧ SameEvent res.1 res'.1)
      (merkleRollApplyFn canopied.header canopied.key canopied.roll func)
      (merkleRollApplyFn plain.header plain.key plain.roll func') := by
  rw [merkleRollApplyFn, merkleRollApplyFn, if_pos h.canopied_inv.supported,
    if_pos h.plain_inv.supported, hfunc]
  rcases func' plain.roll with ⟨r | e | _, roll⟩
  · exact ⟨rfl, rfl, rfl, rfl⟩
  · trivial
  · trivial

omit [DecidableEq Pubkey] in
/-- One call on both rolls, and its path written to both canopies. -/
theorem write_agree [CollisionFree Node] (h : TwinInv c canopied plain ws)
    {canopy canopy' : Canopy Node} (hcanopy : CanopyInv D c (treeAfter ws) canopy.nodes)
    (htrailing : canopy.trailing = 0) (hcanopy' : CanopyInv D 0 (treeAfter ws) canopy'.nodes)
    (htrailing' : canopy'.trailing = 0) (call : Call Node) (hbelow : call.IndexBelow D)
    {func : MerkleRoll Node D B → Outcome CMTError Node × MerkleRoll Node D B}
    (hfunc : func canopied.roll = call.exec plain.roll) :
    Outcome.Agree (fun res res' => Twins (some res.1, res.2) (some res'.1, res'.2))
      (do
        let (changeLog, roll) ← merkleRollApplyFn canopied.header canopied.key canopied.roll func
        let canopy ← updateCanopy canopy canopied.header.maxDepth (some changeLog)
        .ok (changeLog, { canopied with roll := roll, canopy := canopy }))
      (do
        let (changeLog, roll) ← merkleRollApplyFn plain.header plain.key plain.roll call.exec
        let canopy ← updateCanopy canopy' plain.header.maxDepth (some changeLog)
        .ok (changeLog, { plain with roll := roll, canopy := canopy })) := by
  refine (h.apply_agree hfunc).bind ?_
  rintro ⟨event, roll⟩ ⟨event', roll'⟩ hok hok' ⟨rfl, hsame⟩
  obtain ⟨-, rfl⟩ := merkleRollApplyFn_eq_ok hok
  obtain ⟨⟨r, hexec⟩, rfl⟩ := merkleRollApplyFn_eq_ok hok'
  have hwritten := h.plain_inv.roll.exec_ok hexec
  have hlt : roll.getChangeLog.index.toNat < 2 ^ D := by
    rw [hwritten.log_index]
    exact h.plain_inv.roll.target_lt hbelow hexec
  have hrec := hwritten.records
  obtain ⟨canopy₁, -, -, hupdate⟩ := updateCanopy_eq hcanopy htrailing h.canopied_inv.cached
    h.canopied_inv.depth_lt h.canopied_inv.depth_eq hrec hlt canopied.key roll.sequenceNumber
  obtain ⟨canopy₂, -, -, hupdate'⟩ := updateCanopy_eq hcanopy' htrailing' h.plain_inv.cached
    h.plain_inv.depth_lt h.plain_inv.depth_eq hrec hlt plain.key roll.sequenceNumber
  simp only [Outcome.ok_bind, hupdate, hupdate']
  exact ⟨⟨rfl, .some hsame⟩, h.authority_eq, h.append_eq⟩

omit [NodeHash Node] [DecidableEq Node] [Build] hB in
/-- The two accounts ask for the same signers. -/
theorem assert_agree {p q : Prop} [Decidable p] [Decidable q] (hpq : p ↔ q) :
    Outcome.Agree (fun _ _ => True) (Outcome.assert p : Outcome GummyrollError Unit)
      (Outcome.assert q : Outcome GummyrollError Unit) := by
  rw [Outcome.assert, Outcome.assert]
  by_cases h : p
  · rw [if_pos h, if_pos (hpq.1 h)]
    trivial
  · rw [if_neg h, if_neg (hpq.not.1 h)]
    trivial

omit [DecidableEq Pubkey] [Build] in
theorem size_agree (h : TwinInv c canopied plain ws) :
    Outcome.Agree (fun _ _ => True) (merkleRollGetSize canopied.header)
      (merkleRollGetSize plain.header) := by
  rw [merkleRollGetSize, merkleRollGetSize, if_pos h.canopied_inv.supported,
    if_pos h.plain_inv.supported]
  trivial

/-- One request on both accounts. -/
theorem exec_agree [CollisionFree Node] [NonzeroHash Node] (h : TwinInv c canopied plain ws)
    {request : Request Node Pubkey} (hvalid : request.Valid D plain.roll.bufferSize) :
    Outcome.Agree Twins ((request.instruction D c ws).exec canopied)
      ((request.instruction D 0 ws).exec plain) := by
  cases request with
  | replaceLeaf authority previousLeaf newLeaf index age =>
    obtain ⟨hindex, hage⟩ := hvalid
    refine Outcome.Agree.bind ?_ fun _ _ _ _ htwins => htwins
    refine (assert_agree (by rw [h.authority_eq])).bind fun _ _ _ _ _ => ?_
    refine h.size_agree.bind fun _ _ _ _ _ => ?_
    refine (h.fill_agree hindex hage).bind ?_
    rintro ⟨canopy, proof⟩ ⟨canopy', proof'⟩ - - ⟨hcanopy, htrailing, hcanopy', htrailing', hcheck⟩
    refine h.write_agree hcanopy htrailing hcanopy' htrailing'
      (.setLeaf _ previousLeaf newLeaf proof' index) hindex ?_
    rw [h.roll_eq]
    exact hcheck.setLeaf_eq previousLeaf newLeaf
  | append authority appendAuthority leaf =>
    refine Outcome.Agree.bind ?_ fun _ _ _ _ htwins => htwins
    refine (assert_agree (by rw [h.authority_eq])).bind fun _ _ _ _ _ => ?_
    refine (assert_agree (by rw [h.append_eq])).bind fun _ _ _ _ _ => ?_
    refine h.size_agree.bind fun _ _ _ _ _ => ?_
    refine h.write_agree h.canopied_inv.canopy h.canopied_inv.trailing h.plain_inv.canopy
      h.plain_inv.trailing (.append leaf) trivial ?_
    rw [h.roll_eq]
    rfl
  | insertOrAppend authority leaf index age =>
    obtain ⟨hindex, hage⟩ := hvalid
    refine Outcome.Agree.bind ?_ fun _ _ _ _ htwins => htwins
    refine (assert_agree (by rw [h.authority_eq])).bind fun _ _ _ _ _ => ?_
    refine h.size_agree.bind fun _ _ _ _ _ => ?_
    refine (h.fill_agree hindex hage).bind ?_
    rintro ⟨canopy, proof⟩ ⟨canopy', proof'⟩ - - ⟨hcanopy, htrailing, hcanopy', htrailing', hcheck⟩
    refine h.write_agree hcanopy htrailing hcanopy' htrailing'
      (.fillEmptyOrAppend _ leaf proof' index) hindex ?_
    rw [h.roll_eq]
    exact hcheck.fillEmptyOrAppend_eq leaf
  | verifyLeaf leaf index age =>
    obtain ⟨hindex, hage⟩ := hvalid
    have hverify : Outcome.Agree (fun account account' => Twins (none, account) (none, account'))
        (canopied.verifyLeaf (MerkleTree.root hashv D (treeAfter (ws.drop age))) leaf index
          ((siblings D (treeAfter (ws.drop age)) index.toNat).take (D - c)))
        (plain.verifyLeaf (MerkleTree.root hashv D (treeAfter (ws.drop age))) leaf index
          ((siblings D (treeAfter (ws.drop age)) index.toNat).take (D - 0))) := by
      refine h.size_agree.bind fun _ _ _ _ _ => ?_
      refine (h.fill_agree hindex hage).bind ?_
      rintro ⟨canopy, proof⟩ ⟨canopy', proof'⟩ - - ⟨-, -, -, -, hcheck⟩
      refine (h.apply_agree ?_).bind ?_
      · rw [h.roll_eq]
        exact hcheck.proveLeaf_eq leaf
      · rintro ⟨event, roll⟩ ⟨event', roll'⟩ - - ⟨hroll, -⟩
        exact ⟨⟨hroll, .none⟩, h.authority_eq, h.append_eq⟩
    exact hverify.bind fun _ _ _ _ htwins => htwins
  | transferAuthority authority newAuthority newAppendAuthority =>
    have htransfer : Outcome.Agree (fun account account' => Twins (none, account) (none, account'))
        (canopied.transferAuthority authority newAuthority newAppendAuthority)
        (plain.transferAuthority authority newAuthority newAppendAuthority) := by
      refine (assert_agree (by rw [h.authority_eq])).bind fun _ _ _ _ _ => ?_
      exact ⟨⟨h.roll_eq, .none⟩, by rw [h.authority_eq], by rw [h.append_eq]⟩
    exact htransfer.bind fun _ _ _ _ htwins => htwins

/-- What one request preserves. -/
theorem step [CollisionFree Node] [NonzeroHash Node] {canopied plain : AccountState Node Pubkey D B}
    (h : TwinInv c canopied.account plain.account plain.writes) {request : Request Node Pubkey}
    (hvalid : request.Valid D plain.account.roll.bufferSize) :
    let plain' := plain.step (request.instruction D 0 plain.writes)
    TwinInv c (canopied.step (request.instruction D c plain.writes)).account plain'.account
      plain'.writes := by
  have hagree := h.exec_agree hvalid
  rw [AccountState.step, AccountState.step]
  rcases hexec' : (request.instruction D 0 plain.writes).exec plain.account with
    ⟨_ | event', plain'⟩ | e | _
  · rw [hexec'] at hagree
    obtain ⟨⟨event, canopied'⟩, hexec, ⟨hroll, hevent⟩, hauthority, happend⟩ := hagree.exists_left
    cases hevent
    rw [hexec]
    refine ⟨h.canopied_inv.exec_none hexec, h.plain_inv.exec_none hexec', hroll, hauthority,
      happend, ?_⟩
    dsimp only
    rw [(Instruction.exec_none hexec').roll_eq]
    exact h.run
  · rw [hexec'] at hagree
    obtain ⟨⟨event, canopied'⟩, hexec, ⟨hroll, hevent⟩, hauthority, happend⟩ := hagree.exists_left
    cases hevent with
    | @some event _ hsame =>
      rw [hexec]
      have hinv := h.canopied_inv.exec_some hexec
      rw [hsame.2.2, request.leaf_instruction D c 0] at hinv
      exact ⟨hinv, h.plain_inv.exec_some hexec', hroll, hauthority, happend,
        h.plain_inv.run_exec_some h.run hexec' fun call hcall => hcall (hvalid.below 0 plain.writes)⟩
  · rw [hexec'] at hagree
    have hne := hagree.ne_ok (by simp)
    rcases hexec : (request.instruction D c plain.writes).exec canopied.account with res | e | _
    · exact absurd hexec (hne res)
    · exact h
    · exact h
  · rw [hexec'] at hagree
    have hne := hagree.ne_ok (by simp)
    rcases hexec : (request.instruction D c plain.writes).exec canopied.account with res | e | _
    · exact absurd hexec (hne res)
    · exact h
    · exact h

end TwinInv

/-- Both accounts are initialised alike. -/
theorem init_agree {canopied₀ plain₀ : Account Node Pubkey D B} (hcanopied : canopied₀.Fresh c)
    (hplain : plain₀.Fresh 0) (authority appendAuthority : Pubkey) (slot slot' : ℕ) :
    Outcome.Agree (fun res res' => SameResult (some res.1, res.2) (some res'.1, res'.2))
      (canopied₀.initEmptyGummyroll authority appendAuthority slot)
      (plain₀.initEmptyGummyroll authority appendAuthority slot') := by
  refine .of_iff ?_ ?_
  · rw [initEmptyGummyroll_isOk_iff hcanopied, initEmptyGummyroll_isOk_iff hplain]
  · rintro ⟨event, canopied⟩ ⟨event', plain⟩ h h'
    have hopened := initEmptyGummyroll_ok hcanopied h
    have hopened' := initEmptyGummyroll_ok hplain h'
    obtain ⟨r, hinit⟩ := hopened.roll_ok
    obtain ⟨r', hinit'⟩ := hopened'.roll_ok
    have hroll : canopied.roll = plain.roll :=
      (congrArg Prod.snd hinit).symm.trans (congrArg Prod.snd hinit')
    refine ⟨hroll, ?_⟩
    rw [hopened.event_eq, hopened'.event_eq, hroll]
    exact .some ⟨rfl, rfl, rfl⟩

/-- The two accounts stay related along every run. -/
theorem TwinRun.inv [CollisionFree Node] [NonzeroHash Node]
    {canopied plain : AccountState Node Pubkey D B} (hrun : TwinRun c canopied plain) :
    TwinInv c canopied.account plain.account plain.writes := by
  induction hrun with
  | @init _ _ _ _ authority appendAuthority slot slot' _ _ hcanopied hplain h h' =>
    have hopened := initEmptyGummyroll_ok hcanopied h
    have hopened' := initEmptyGummyroll_ok hplain h'
    have hagree := init_agree hcanopied hplain authority appendAuthority slot slot'
    rw [h, h'] at hagree
    obtain ⟨r, hinit⟩ := hopened'.roll_ok
    exact ⟨hopened.inv, hopened'.inv, hagree.1, by rw [hopened.header_eq, hopened'.header_eq],
      by rw [hopened.header_eq, hopened'.header_eq], .init hinit⟩
  | step _ _ hvalid ih => exact ih.step hvalid

/-- A canopy changes nothing but the proofs: what succeeds with it succeeds without it, and
leaves the same roll and the same event behind. -/
theorem canopy_transparent [CollisionFree Node] [NonzeroHash Node] :
    (∀ {canopied₀ plain₀ : Account Node Pubkey D B}, canopied₀.Fresh c → plain₀.Fresh 0 →
      ∀ authority appendAuthority slot slot',
        Outcome.Agree (fun res res' => SameResult (some res.1, res.2) (some res'.1, res'.2))
          (canopied₀.initEmptyGummyroll authority appendAuthority slot)
          (plain₀.initEmptyGummyroll authority appendAuthority slot')) ∧
      ∀ {canopied plain : AccountState Node Pubkey D B}, TwinRun c canopied plain →
        canopied.account.roll = plain.account.roll ∧
          (∀ age < plain.account.roll.bufferSize, (plain.account.roll.log age).root =
            MerkleTree.root hashv D (treeAfter (plain.writes.drop age))) ∧
          ∀ request : Request Node Pubkey, request.Valid D plain.account.roll.bufferSize →
            Outcome.Agree SameResult
              ((request.instruction D c plain.writes).exec canopied.account)
              ((request.instruction D 0 plain.writes).exec plain.account) := by
  refine ⟨init_agree, fun hrun => ?_⟩
  have hinv := hrun.inv
  refine ⟨hinv.roll_eq, fun age hage => hinv.plain_inv.roll.log_root hage, fun request hvalid => ?_⟩
  exact (hinv.exec_agree hvalid).mono fun _ _ htwins => htwins.same

end Twins

theorem twinRun_opened {c : ℕ} (hc : c ≤ 3) : TwinRun c (opened c) (opened 0) := by
  obtain ⟨event, account, hok, heq⟩ := opened_ok hc
  obtain ⟨event', account', hok', heq'⟩ := opened_ok (Nat.zero_le 3)
  rw [heq, heq']
  exact .init (fresh_zeroed hc) (fresh_zeroed (Nat.zero_le 3)) hok hok'

/-- Leaf `0` is replaced with one sibling from before leaf `1` was appended, and with all
three of them. -/
theorem canopy_transparent_stale :
    let canopied := ((opened 2).step (.append 0 0 (.leaf 1))).step (.append 0 0 (.leaf 2))
    let plain := ((opened 0).step (.append 0 0 (.leaf 1))).step (.append 0 0 (.leaf 2))
    let request : Request Term ℕ := .replaceLeaf 0 (.leaf 1) (.leaf 3) 0 1
    (plain.step (request.instruction 3 0 plain.writes)).writes =
        [(0, .leaf 3), (1, .leaf 2), (0, .leaf 1)] ∧
      Outcome.Agree SameResult ((request.instruction 3 2 plain.writes).exec canopied.account)
        ((request.instruction 3 0 plain.writes).exec plain.account) := by
  intro canopied plain request
  have hrun : TwinRun 2 canopied plain :=
    .step (.step (twinRun_opened (by norm_num)) (.append 0 0 (.leaf 1)) trivial)
      (.append 0 0 (.leaf 2)) trivial
  have hvalid : request.Valid 3 plain.account.roll.bufferSize := ⟨by decide, by decide +kernel⟩
  exact ⟨by decide +kernel, (canopy_transparent.2 hrun).2.2 request hvalid⟩

end Candyland.Gummyroll
