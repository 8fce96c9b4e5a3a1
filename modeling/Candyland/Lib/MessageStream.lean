import Mathlib
import Candyland.Lib.Steps

/-!
# Streams with a consumer group

A stream holds entries with increasing keys.  An addition puts an entry at the end and may trim
old entries as long as `maxLen` are left.  A group of consumers remembers the key that was
delivered last; a read delivers the first entry after it, and a group starts behind all
entries.  What is read is a sublist of what was added, in its order, and no entry is missed
while fewer than `maxLen` wait.
-/

/-- A stream, the largest key it ever had, and the key that was delivered last to the group, if
there is one. -/
structure MessageStream (ι α : Type*) where
  entries : List (ι × α)
  lastId : ι
  group : Option ι

namespace MessageStream

variable {ι α : Type*} [LinearOrder ι]

/-- An entry is added, and the oldest entries are trimmed. -/
def add (s : MessageStream ι α) (entry : ι × α) (trim : ℕ) : MessageStream ι α :=
  { s with entries := (s.entries ++ [entry]).drop trim, lastId := entry.1 }

/-- The keys grow, and trimming leaves `maxLen` entries. -/
def CanAdd (maxLen : ℕ) (s : MessageStream ι α) (entry : ι × α) (trim : ℕ) : Prop :=
  s.lastId < entry.1 ∧ (trim = 0 ∨ trim + maxLen ≤ s.entries.length + 1)

/-- A group is created at the end of the stream, if there is none. -/
def createGroup (s : MessageStream ι α) : MessageStream ι α :=
  { s with group := s.group.or (some s.lastId) }

/-- The entries that wait for the group. -/
def unread (s : MessageStream ι α) : List (ι × α) :=
  match s.group with
  | none => []
  | some last => s.entries.filter fun entry => last < entry.1

/-- The next entry for the group. -/
def read (s : MessageStream ι α) : Option ((ι × α) × MessageStream ι α) :=
  s.unread.head?.map fun entry => (entry, { s with group := some entry.1 })

/-- The keys of the entries grow up to the largest one, and the group is not behind it. -/
structure Inv (s : MessageStream ι α) : Prop where
  sorted : (s.entries.map Prod.fst).Pairwise (· < ·)
  le_last : ∀ entry ∈ s.entries, entry.1 ≤ s.lastId
  group_le : ∀ last, s.group = some last → last ≤ s.lastId

variable {s s' : MessageStream ι α} {entry : ι × α} {trim maxLen : ℕ} {last : ι}

theorem unread_eq (h : s.group = some last) :
    s.unread = s.entries.filter fun entry => last < entry.1 := by
  rw [unread, h]

theorem unread_eq_nil (h : s.group = none) : s.unread = [] := by
  rw [unread, h]

/-- A group that was just created has nothing to read. -/
theorem unread_createGroup (hinv : s.Inv) : s.createGroup.unread = s.unread := by
  cases h : s.group with
  | none =>
    have hgroup : s.createGroup.group = some s.lastId := by rw [createGroup, h, Option.none_or]
    rw [unread_eq_nil h, unread_eq hgroup, List.filter_eq_nil_iff]
    intro entry hentry
    rw [decide_eq_true_eq, not_lt]
    exact hinv.le_last entry hentry
  | some last =>
    have hgroup : s.createGroup.group = some last := by rw [createGroup, h, Option.some_or]
    rw [unread_eq h, unread_eq hgroup]
    rfl

theorem Inv.createGroup (hinv : s.Inv) : s.createGroup.Inv := by
  refine ⟨hinv.sorted, hinv.le_last, fun last hlast => ?_⟩
  cases h : s.group with
  | none =>
    rw [MessageStream.createGroup, h, Option.none_or] at hlast
    exact (Option.some.inj hlast).symm.le
  | some last' =>
    rw [MessageStream.createGroup, h, Option.some_or] at hlast
    exact hinv.group_le last (h.trans hlast)

/-! ### Addition -/

theorem Inv.add (hinv : s.Inv) (hadd : CanAdd maxLen s entry trim) : (s.add entry trim).Inv := by
  obtain ⟨hlt, -⟩ := hadd
  have hsub : (s.add entry trim).entries.Sublist (s.entries ++ [entry]) := List.drop_sublist _ _
  refine ⟨?_, fun e he => ?_, fun last hlast => (hinv.group_le last hlast).trans hlt.le⟩
  · refine List.Pairwise.sublist (hsub.map _) ?_
    rw [List.map_append, List.pairwise_append]
    refine ⟨hinv.sorted, List.pairwise_singleton _ _, ?_⟩
    rintro id hid id' hid'
    obtain ⟨e, he, rfl⟩ := List.mem_map.1 hid
    rw [List.map_singleton, List.mem_singleton] at hid'
    rw [hid']
    exact (hinv.le_last e he).trans_lt hlt
  · obtain he | he := List.mem_append.1 (hsub.subset he)
    · exact (hinv.le_last e he).trans hlt.le
    · rw [List.mem_singleton.1 he]
      exact le_rfl

/-- Without trimming, the new entry waits behind the others. -/
theorem filter_append_entry (hinv : s.Inv) (hlt : s.lastId < entry.1) (h : s.group = some last) :
    (s.entries ++ [entry]).filter (fun entry => last < entry.1) = s.unread ++ [entry] := by
  rw [List.filter_append, unread_eq h,
    List.filter_singleton, decide_eq_true ((hinv.group_le last h).trans_lt hlt)]
  rfl

/-- After an addition there wait some of the entries that waited, and the new one. -/
theorem unread_add_sublist (hinv : s.Inv) (hlt : s.lastId < entry.1) :
    (s.add entry trim).unread.Sublist (s.unread ++ [entry]) := by
  cases h : s.group with
  | none =>
    rw [unread_eq_nil (show (s.add entry trim).group = none from h)]
    exact List.nil_sublist _
  | some last =>
    rw [unread_eq (show (s.add entry trim).group = some last from h),
      ← filter_append_entry hinv hlt h]
    exact (List.drop_sublist _ _).filter _

/-- The entries behind a bound are at the end of a list whose keys grow. -/
theorem exists_append_filter {entries : List (ι × α)}
    (h : (entries.map Prod.fst).Pairwise (· < ·)) (last : ι) : ∃ front,
      entries = front ++ entries.filter (fun entry => last < entry.1) ∧
        ∀ e ∈ front, ¬ last < e.1 := by
  induction entries with
  | nil => exact ⟨[], rfl, fun _ he => absurd he List.not_mem_nil⟩
  | cons e entries ih =>
    obtain ⟨hhead, htail⟩ := List.pairwise_cons.1 h
    by_cases he : last < e.1
    · refine ⟨[], ?_, fun _ he => absurd he List.not_mem_nil⟩
      rw [List.nil_append, List.filter_eq_self.2]
      intro e' he'
      obtain rfl | he' := List.mem_cons.1 he'
      · exact decide_eq_true he
      · exact decide_eq_true (he.trans (hhead e'.1 (List.mem_map_of_mem he')))
    · obtain ⟨front, heq, hfront⟩ := ih htail
      refine ⟨e :: front, ?_, fun e' he' => ?_⟩
      · rw [List.filter_cons_of_neg (by simpa using he), List.cons_append, ← heq]
      · obtain rfl | he' := List.mem_cons.1 he'
        · exact he
        · exact hfront e' he'

/-- While fewer than `maxLen` entries wait, an addition loses none of them. -/
theorem unread_add (hinv : s.Inv) (hadd : CanAdd maxLen s entry trim) (h : s.group = some last)
    (hroom : s.unread.length < maxLen) : (s.add entry trim).unread = s.unread ++ [entry] := by
  obtain ⟨hlt, htrim⟩ := hadd
  obtain ⟨front, heq, hfront⟩ := exists_append_filter hinv.sorted last
  rw [← unread_eq h] at heq
  have htrim_le : trim ≤ front.length := by
    have hlength := congrArg List.length heq
    rw [List.length_append] at hlength
    omega
  have hfilter := filter_append_entry hinv hlt h
  rw [heq, List.append_assoc, List.filter_append, List.filter_eq_nil_iff.2 (by simpa using hfront),
    List.nil_append] at hfilter
  rw [unread_eq (show (s.add entry trim).group = some last from h), add, heq, List.append_assoc,
    List.drop_append_of_le_length htrim_le, List.filter_append, hfilter, List.filter_eq_nil_iff.2,
    List.nil_append]
  intro e he
  rw [decide_eq_true_eq]
  exact hfront e (List.mem_of_mem_drop he)

/-! ### Reading -/

theorem group_read (h : s.read = some (entry, s')) : s'.group = some entry.1 := by
  rw [read, Option.map_eq_some_iff] at h
  obtain ⟨entry', -, heq⟩ := h
  obtain ⟨rfl, rfl⟩ := Prod.mk.inj heq
  rfl

/-- A read takes the first entry that waits, and leaves the others. -/
theorem read_eq_some (hinv : s.Inv) (h : s.read = some (entry, s')) :
    s.unread = entry :: s'.unread ∧ s'.Inv := by
  rw [read, Option.map_eq_some_iff] at h
  obtain ⟨entry', hhead, heq⟩ := h
  obtain ⟨rfl, rfl⟩ := Prod.mk.inj heq
  obtain ⟨rest, hunread⟩ := List.head?_eq_some_iff.1 hhead
  cases hgroup : s.group with
  | none =>
    rw [unread_eq_nil hgroup] at hunread
    cases hunread
  | some last =>
    obtain ⟨front, heq, hfront⟩ := exists_append_filter hinv.sorted last
    rw [← unread_eq hgroup, hunread] at heq
    have hmem : entry' ∈ s.unread := hunread ▸ List.mem_cons_self
    rw [unread_eq hgroup, List.mem_filter, decide_eq_true_eq] at hmem
    refine ⟨?_, hinv.sorted, hinv.le_last, fun id hid => ?_⟩
    · have hsorted := hinv.sorted
      rw [heq, List.map_append, List.map_cons, List.pairwise_append, List.pairwise_cons] at hsorted
      rw [hunread, unread_eq rfl, heq, List.filter_append, List.filter_eq_nil_iff.2,
        List.nil_append, List.filter_cons_of_neg (by simp), List.filter_eq_self.2]
      · exact fun e he => decide_eq_true (hsorted.2.1.1 e.1 (List.mem_map_of_mem he))
      · intro e he
        rw [decide_eq_true_eq]
        exact fun h => hfront e he (hmem.2.trans h)
    · obtain rfl := Option.some.inj hid
      exact hinv.le_last entry' hmem.1

end MessageStream
