import Uv.Resolver.CandidateSelector

/-!
# The selected candidate

A candidate is preferred for its version, then for being compatible, then for the index of its
map.  The scan over sorted entries ends with the candidate that is preferred to all others.
-/

namespace Uv.Resolver

open Uv.Core Uv.DistributionTypes Uv.Pep440

variable {Name File HashDigest Marker : Type} {packageName : Name} {range : VersionRange}
  {allowPrerelease : Bool}

/-! ## The scan -/

section Scan

variable {κ : Type*} [LinearOrder κ] (rank : ValidVersion → κ)

/-- The place of an entry in the merge. -/
def place (item : VersionItem File HashDigest Marker) : κ ×ₗ ℕ := toLex (rank item.2.1, item.1)

/-- Less is better: the version, compatible before incompatible, the index. -/
def preference (index : ℕ) (candidate : Candidate Name File HashDigest Marker) :
    κ ×ₗ Bool ×ₗ ℕ :=
  toLex (rank candidate.version, toLex (candidate.dist.isIncompatible, index))

/-- The entry has the candidate, and is not skipped. -/
def HasCandidate (packageName : Name) (range : VersionRange) (allowPrerelease : Bool)
    (items : List (VersionItem File HashDigest Marker)) (index : ℕ)
    (candidate : Candidate Name File HashDigest Marker) : Prop :=
  ∃ entry, (index, entry) ∈ items ∧
    candidateOf packageName range allowPrerelease entry = some candidate

theorem candidateOf_version
    {entry : ValidVersion × Option (PrioritizedDist File HashDigest Marker)}
    {candidate : Candidate Name File HashDigest Marker}
    (hcandidate : candidateOf packageName range allowPrerelease entry = some candidate) :
    candidate.version = entry.1 := by
  unfold candidateOf at hcandidate
  split at hcandidate
  · cases hcandidate
  split at hcandidate
  · cases hcandidate
  split at hcandidate
  · cases hcandidate
  simp only at hcandidate
  split at hcandidate
  · cases hcandidate
  · rw [← Option.some.inj hcandidate]
    rfl

variable {rank} {item other : VersionItem File HashDigest Marker}
  {candidate otherCandidate : Candidate Name File HashDigest Marker}
  {items : List (VersionItem File HashDigest Marker)}

/-- An earlier candidate is preferred, unless it is incompatible and the later one is not. -/
theorem preference_le (hplace : place rank item ≤ place rank other)
    (hversion : candidate.version = item.2.1) (hother : otherCandidate.version = other.2.1)
    (hcompatible : candidate.dist.isIncompatible ≤ otherCandidate.dist.isIncompatible) :
    preference rank item.1 candidate ≤ preference rank other.1 otherCandidate := by
  simp only [place, preference, Prod.Lex.toLex_le_toLex, hversion, hother] at hplace ⊢
  rcases hplace with hlt | ⟨heq, hindex⟩
  · exact .inl hlt
  · refine .inr ⟨heq, ?_⟩
    rcases hcompatible.lt_or_eq with hlt | heq
    · exact .inl hlt
    · exact .inr ⟨heq, hindex⟩

theorem preference_lt_of_rank (hrank : rank candidate.version < rank otherCandidate.version)
    (index otherIndex : ℕ) :
    preference rank index candidate ≤ preference rank otherIndex otherCandidate :=
  (Prod.Lex.toLex_lt_toLex.mpr (.inl hrank)).le

theorem rank_le_of_place (hplace : place rank item ≤ place rank other) :
    rank item.2.1 ≤ rank other.2.1 := by
  simp only [place, Prod.Lex.toLex_le_toLex] at hplace
  rcases hplace with hlt | ⟨heq, -⟩
  · exact hlt.le
  · exact heq.le

theorem hasCandidate_cons {head : VersionItem File HashDigest Marker} {index : ℕ} :
    HasCandidate packageName range allowPrerelease (head :: items) index candidate ↔
      index = head.1 ∧ candidateOf packageName range allowPrerelease head.2 = some candidate ∨
        HasCandidate packageName range allowPrerelease items index candidate := by
  constructor
  · rintro ⟨entry, hmem, hentry⟩
    rcases List.mem_cons.mp hmem with rfl | hmem
    · exact .inl ⟨rfl, hentry⟩
    · exact .inr ⟨entry, hmem, hentry⟩
  · rintro (⟨rfl, hhead⟩ | ⟨entry, hmem, hentry⟩)
    · exact ⟨head.2, List.mem_cons_self, hhead⟩
    · exact ⟨entry, List.mem_cons_of_mem _ hmem, hentry⟩

/-- An entry without a candidate is skipped. -/
theorem hasCandidate_skip {head : VersionItem File HashDigest Marker}
    (hnone : candidateOf packageName range allowPrerelease head.2 = none) :
    HasCandidate packageName range allowPrerelease (head :: items) =
      HasCandidate packageName range allowPrerelease items := by
  funext index candidate
  rw [hasCandidate_cons, hnone]
  simp

/-- A compatible candidate of the first entry is the best. -/
theorem preference_le_compatible {head : VersionItem File HashDigest Marker}
    (hhead : ∀ other ∈ items, place rank head ≤ place rank other)
    (hcandidate : candidateOf packageName range allowPrerelease head.2 = some candidate)
    (hcompatible : candidate.dist.isIncompatible = false) {otherIndex : ℕ}
    (hother : HasCandidate packageName range allowPrerelease (head :: items) otherIndex
      otherCandidate) :
    preference rank head.1 candidate ≤ preference rank otherIndex otherCandidate := by
  have hle : candidate.dist.isIncompatible ≤ otherCandidate.dist.isIncompatible := by
    rw [hcompatible]
    exact Bool.false_le _
  obtain ⟨entry, hmem, hentry⟩ := hother
  have hversion := candidateOf_version hcandidate
  have hotherVersion : otherCandidate.version = (otherIndex, entry).2.1 :=
    candidateOf_version hentry
  rcases List.mem_cons.mp hmem with rfl | hmem
  · exact preference_le le_rfl hversion hotherVersion hle
  · exact preference_le (hhead _ hmem) hversion hotherVersion hle

/-- After an incompatible candidate: the entries of its version are looked at for a compatible
one. -/
theorem selectCandidate_some (hrank : ∀ version other, rank version = rank other ↔
      SameKey version other)
    (hsorted : items.Pairwise fun item other => place rank item ≤ place rank other)
    (hafter : ∀ other ∈ items, place rank item ≤ place rank other)
    (hversion : candidate.version = item.2.1)
    (hincompatible : candidate.dist.isIncompatible = true) :
    ∃ index result, selectCandidate packageName range allowPrerelease (some candidate)
        (items.map Prod.snd) = some result ∧
      (index = item.1 ∧ result = candidate ∨
        HasCandidate packageName range allowPrerelease items index result) ∧
      preference rank index result ≤ preference rank item.1 candidate ∧
      ∀ otherIndex otherCandidate,
        HasCandidate packageName range allowPrerelease items otherIndex otherCandidate →
        preference rank index result ≤ preference rank otherIndex otherCandidate := by
  induction items with
  | nil =>
      refine ⟨item.1, candidate, rfl, .inl ⟨rfl, rfl⟩, le_rfl, ?_⟩
      rintro _ _ ⟨_, hmem, _⟩
      exact absurd hmem List.not_mem_nil
  | cons head rest ih =>
      obtain ⟨hhead, hrest⟩ := List.pairwise_cons.mp hsorted
      have hplace := hafter head List.mem_cons_self
      have hafterRest : ∀ other ∈ rest, place rank item ≤ place rank other :=
        fun other hmem => hafter other (List.mem_cons_of_mem _ hmem)
      rw [List.map_cons, selectCandidate]
      by_cases hsame : SameKey head.2.1 candidate.version
      · have hcompare : (compare head.2.1 candidate.version != .eq) = false := by
          rw [bne, compare_beq_eq.mpr hsame]
          rfl
        rw [Option.any_some, hcompare, if_neg Bool.false_ne_true]
        cases hcandidate : candidateOf packageName range allowPrerelease head.2 with
        | none =>
            rw [hasCandidate_skip hcandidate]
            exact ih hrest hafterRest
        | some found =>
            have hfound := candidateOf_version hcandidate
            simp only
            by_cases hkind : found.dist.isIncompatible = true
            · rw [if_pos hkind, Option.some_or]
              obtain ⟨index, result, heq, hfrom, hle, hbest⟩ := ih hrest hafterRest
              refine ⟨index, result, heq,
                hfrom.imp_right fun h => hasCandidate_cons.mpr (.inr h), hle, ?_⟩
              intro otherIndex otherCandidate hother
              rcases hasCandidate_cons.mp hother with ⟨rfl, hentry⟩ | hother
              · rw [hcandidate] at hentry
                obtain rfl := Option.some.inj hentry
                exact hle.trans (preference_le hplace hversion hfound (by
                  rw [hincompatible, hkind]))
              · exact hbest _ _ hother
            · rw [if_neg hkind]
              have hkind := Bool.eq_false_iff.mpr hkind
              refine ⟨head.1, found, rfl, .inr (hasCandidate_cons.mpr (.inl ⟨rfl, hcandidate⟩)), ?_,
                fun _ _ hother => preference_le_compatible hhead hcandidate hkind hother⟩
              refine Prod.Lex.toLex_le_toLex.mpr (.inr ⟨?_, ?_⟩)
              · exact (hrank _ _).mpr (by rw [hfound]; exact hsame)
              · rw [hkind, hincompatible]
                exact (Prod.Lex.toLex_lt_toLex.mpr (.inl Bool.false_lt_true)).le
      · have hcompare : (compare head.2.1 candidate.version != .eq) = true := by
          rw [bne, Bool.not_eq_true', Bool.eq_false_iff]
          exact fun heq => hsame (compare_beq_eq.mp heq)
        rw [Option.any_some, hcompare, if_pos rfl]
        refine ⟨item.1, candidate, rfl, .inl ⟨rfl, rfl⟩, le_rfl, ?_⟩
        have hlt : rank candidate.version < rank head.2.1 := by
          rw [hversion]
          refine lt_of_le_of_ne (rank_le_of_place hplace) fun heq => hsame ?_
          rw [hversion]
          exact (hrank _ _).mp heq.symm
        rintro otherIndex otherCandidate ⟨entry, hmem, hentry⟩
        refine preference_lt_of_rank ?_ _ _
        rw [candidateOf_version hentry]
        rcases List.mem_cons.mp hmem with rfl | hmem
        · exact hlt
        · exact hlt.trans_le (rank_le_of_place (hhead _ hmem))

/-- What the scan of sorted entries ends with. -/
def IsBest (rank : ValidVersion → κ)
    (hasCandidate : ℕ → Candidate Name File HashDigest Marker → Prop) :
    Option (Candidate Name File HashDigest Marker) → Prop
  | none => ∀ index candidate, ¬ hasCandidate index candidate
  | some candidate => ∃ index, hasCandidate index candidate ∧
      ∀ otherIndex otherCandidate, hasCandidate otherIndex otherCandidate →
        preference rank index candidate ≤ preference rank otherIndex otherCandidate

theorem selectCandidate_none (hrank : ∀ version other, rank version = rank other ↔
      SameKey version other)
    (hsorted : items.Pairwise fun item other => place rank item ≤ place rank other) :
    IsBest rank (HasCandidate packageName range allowPrerelease items)
      (selectCandidate packageName range allowPrerelease none (items.map Prod.snd)) := by
  induction items with
  | nil =>
      rintro _ _ ⟨_, hmem, _⟩
      exact absurd hmem List.not_mem_nil
  | cons head rest ih =>
      obtain ⟨hhead, hrest⟩ := List.pairwise_cons.mp hsorted
      rw [List.map_cons, selectCandidate, Option.any_none, if_neg Bool.false_ne_true]
      cases hcandidate : candidateOf packageName range allowPrerelease head.2 with
      | none =>
          rw [hasCandidate_skip hcandidate]
          exact ih hrest
      | some found =>
          have hfound := candidateOf_version hcandidate
          have hhas : HasCandidate packageName range allowPrerelease (head :: rest) head.1 found :=
            hasCandidate_cons.mpr (.inl ⟨rfl, hcandidate⟩)
          simp only
          by_cases hkind : found.dist.isIncompatible = true
          · rw [if_pos hkind, Option.none_or]
            obtain ⟨index, result, heq, hfrom, hle, hbest⟩ :=
              selectCandidate_some hrank hrest hhead hfound hkind
            rw [heq]
            refine ⟨index, ?_, ?_⟩
            · rcases hfrom with ⟨rfl, rfl⟩ | hfrom
              · exact hhas
              · exact hasCandidate_cons.mpr (.inr hfrom)
            · intro otherIndex otherCandidate hother
              rcases hasCandidate_cons.mp hother with ⟨rfl, hentry⟩ | hother
              · rw [hcandidate] at hentry
                obtain rfl := Option.some.inj hentry
                exact hle
              · exact hbest _ _ hother
          · rw [if_neg hkind]
            have hkind := Bool.eq_false_iff.mpr hkind
            exact ⟨head.1, hhas,
              fun _ _ hother => preference_le_compatible hhead hcandidate hkind hother⟩

end Scan

/-! ## The entries of a map -/

section Iter

variable {Dist : Type} (map : VersionMap Dist) {range : Ranges ValidVersion}
  {entry : ValidVersion × Option Dist}

theorem handles_sorted : map.handles.Pairwise fun entry other =>
    OrdKey.key entry.1 < OrdKey.key other.1 := by
  cases map with
  | eager map => exact List.pairwise_map.mpr map.map.sorted
  | «lazy» map => exact List.pairwise_map.mpr map.map.sorted

variable {map}

theorem mem_handles_of_mem_iter (hmem : entry ∈ map.iter range) : entry ∈ map.handles := by
  unfold VersionMap.iter at hmem
  split at hmem
  · exact List.mem_of_find?_eq_some (Option.mem_toList.mp hmem)
  · exact (List.mem_filter.mp hmem).1

theorem iter_sorted : (map.iter range).Pairwise fun entry other =>
    OrdKey.key entry.1 < OrdKey.key other.1 := by
  unfold VersionMap.iter
  split
  · cases map.handles.find? _ with
    | none => exact List.Pairwise.nil
    | some entry => exact List.pairwise_singleton ..
  · exact (handles_sorted map).filter _

/-- Only one entry has the version of a singleton. -/
theorem contains_of_asSingleton {version other : ValidVersion}
    (hsingleton : asSingleton range = some version) (hcontains : range.contains other = true) :
    SameKey version other := by
  unfold asSingleton at hsingleton
  split at hsingleton
  · rename_i first last hsegments
    split at hsingleton
    · rename_i hsame
      obtain rfl := Option.some.inj hsingleton
      have hsame : OrdKey.key first = OrdKey.key last := compare_beq_eq.mp hsame
      rw [Ranges.contains, hsegments, List.any_cons, List.any_nil, Bool.or_false,
        Bool.and_eq_true] at hcontains
      obtain ⟨hbelow, habove⟩ := hcontains
      rw [Bound.isBelow, Bound.compare_isLE] at hbelow
      rw [Bound.isAbove, Bound.compare_isLE] at habove
      exact le_antisymm hbelow (habove.trans hsame.ge)
    · cases hsingleton
  · cases hsingleton

theorem lowerCut_head_le (hvalid : range.Valid) {first segment : Bound ValidVersion ×
    Bound ValidVersion} (hfirst : range.segments.head? = some first)
    (hmem : segment ∈ range.segments) : first.1.lowerCut ≤ segment.1.lowerCut := by
  obtain ⟨rest, hsegments⟩ := List.head?_eq_some_iff.mp hfirst
  rw [Ranges.Valid, hsegments, List.map_cons, separated_cons] at hvalid
  obtain ⟨hnonempty, hgaps, -⟩ := hvalid
  rw [hsegments, List.mem_cons] at hmem
  rcases hmem with rfl | hmem
  · exact le_rfl
  · have hlt := hnonempty.trans (hgaps _ (List.mem_map_of_mem hmem))
    exact (WithTop.coe_lt_coe.mp hlt).le

theorem upperCut_le_getLast (hvalid : range.Valid) {last segment : Bound ValidVersion ×
    Bound ValidVersion} (hlast : range.segments.getLast? = some last)
    (hmem : segment ∈ range.segments) : segment.2.upperCut ≤ last.2.upperCut := by
  obtain ⟨before, hsegments⟩ := List.getLast?_eq_some_iff.mp hlast
  rw [Ranges.Valid, hsegments, List.map_append] at hvalid
  rw [hsegments, List.mem_append, List.mem_singleton] at hmem
  rcases hmem with hmem | rfl
  · have hgap := (List.pairwise_append.mp hvalid.gaps).2.2 _ (List.mem_map_of_mem hmem)
      (cutsOf last) (by simp)
    exact (hgap.trans (hvalid.nonempty (cutsOf last) (by simp))).le
  · exact le_rfl

/-- The interval around a set holds its elements. -/
theorem inBounds_of_contains (hvalid : range.Valid) {version : ValidVersion}
    (hcontains : range.contains version = true) : inBounds range version = true := by
  obtain ⟨segment, hmem, hsegment⟩ := List.any_eq_true.mp hcontains
  obtain ⟨hbelow, habove⟩ := Bool.and_eq_true _ _ ▸ hsegment
  unfold inBounds Ranges.boundingRange
  cases hfirst : range.segments.head? with
  | none => rfl
  | some first =>
      cases hlast : range.segments.getLast? with
      | none => rfl
      | some last =>
          rw [Bound.isBelow_iff] at hbelow
          rw [Bound.isAbove_iff] at habove
          simp only [Option.getD_some, Bool.and_eq_true, Bound.isBelow_iff, Bound.isAbove_iff]
          exact ⟨(lowerCut_head_le hvalid hfirst hmem).trans hbelow,
            habove.trans_le (upperCut_le_getLast hvalid hlast hmem)⟩

/-- The fast paths lose no version of the set. -/
theorem mem_iter (hvalid : range.Valid) (hmem : entry ∈ map.handles)
    (hcontains : range.contains entry.1 = true) : entry ∈ map.iter range := by
  unfold VersionMap.iter
  split
  · rename_i version hsingleton
    have hsame := contains_of_asSingleton hsingleton hcontains
    rw [Option.mem_toList]
    cases hfind : map.handles.find? fun entry => compare version entry.1 == .eq with
    | none => exact absurd (compare_beq_eq.mpr hsame) (List.find?_eq_none.mp hfind entry hmem)
    | some found =>
        have hbeq : (compare version found.1 == .eq) = true := by
          simpa using List.find?_some hfind
        have hfound : SameKey version found.1 := compare_beq_eq.mp hbeq
        have hdistinct : map.handles.Pairwise fun entry other => ¬ SameKey entry.1 other.1 :=
          (handles_sorted map).imp fun hlt => hlt.ne
        have : Std.Symm fun entry other : ValidVersion × Option Dist =>
            ¬ SameKey entry.1 other.1 := ⟨fun _ _ hnot hsame => hnot hsame.symm⟩
        by_contra hne
        refine hdistinct.forall (List.mem_of_find?_eq_some hfind) hmem ?_
          (hfound.symm.trans hsame)
        rintro rfl
        exact hne rfl
  · exact List.mem_filter.mpr ⟨hmem, inBounds_of_contains hvalid hcontains⟩

end Iter

/-! ## Highest and lowest versions -/

/-- The version can be selected from the map: it is in the range, allowed as a pre-release, and
not hidden for being too new. -/
def Considered (packageName : Name) (range : VersionRange) (allowPrerelease : Bool)
    (map : VersionMap (PrioritizedDist File HashDigest Marker))
    (candidate : Candidate Name File HashDigest Marker) : Prop :=
  ∃ dist, (candidate.version, some dist) ∈ map.handles ∧
    range.val.contains candidate.version = true ∧
    (candidate.version.val.anyPrerelease = true → allowPrerelease = true) ∧
    candidate = .new packageName candidate.version dist .compatible ∧
    candidate.dist.isExcluded = false

theorem candidateOf_eq_some_iff
    {entry : ValidVersion × Option (PrioritizedDist File HashDigest Marker)}
    {candidate : Candidate Name File HashDigest Marker} :
    candidateOf packageName range allowPrerelease entry = some candidate ↔
      ∃ dist, entry = (candidate.version, some dist) ∧
        range.val.contains candidate.version = true ∧
        (candidate.version.val.anyPrerelease = true → allowPrerelease = true) ∧
        candidate = .new packageName candidate.version dist .compatible ∧
        candidate.dist.isExcluded = false := by
  constructor
  · intro hcandidate
    have hversion := candidateOf_version hcandidate
    obtain ⟨version, dist⟩ := entry
    obtain rfl : candidate.version = version := hversion
    rw [candidateOf] at hcandidate
    split at hcandidate
    · cases hcandidate
    rename_i hpre
    split at hcandidate
    · cases hcandidate
    rename_i hcontains
    cases dist with
    | none => cases hcandidate
    | some dist =>
        simp only at hcandidate
        split at hcandidate
        · cases hcandidate
        rename_i hexcluded
        have heq := Option.some.inj hcandidate
        refine ⟨dist, rfl, by simpa using hcontains, ?_, heq.symm, ?_⟩
        · intro hpre'
          simpa [hpre'] using hpre
        · rw [heq] at hexcluded
          simpa using hexcluded
  · rintro ⟨dist, rfl, hcontains, hpre, heq, hexcluded⟩
    have hskip : (candidate.version.val.anyPrerelease && !allowPrerelease) = false := by
      cases hany : candidate.version.val.anyPrerelease with
      | false => rfl
      | true => simp [hpre hany]
    simp only [candidateOf, hskip, hcontains, Bool.not_true, Bool.false_eq_true, if_false]
    rw [← heq, hexcluded, if_neg Bool.false_ne_true]

/-- A candidate comes before another one: for its version, then for being compatible, then for
the index of its map. -/
def Preferred (highest : Bool) (index : ℕ) (candidate : Candidate Name File HashDigest Marker)
    (otherIndex : ℕ) (other : Candidate Name File HashDigest Marker) : Prop :=
  (if highest then OrdKey.key other.version < OrdKey.key candidate.version
    else OrdKey.key candidate.version < OrdKey.key other.version) ∨
  SameKey candidate.version other.version ∧
    (candidate.dist.isIncompatible = false ∧ other.dist.isIncompatible = true ∨
      candidate.dist.isIncompatible = other.dist.isIncompatible ∧ index ≤ otherIndex)

/-- The candidate that comes before all considered ones, or none where none is considered. -/
def SelectedFrom (highest : Bool) (considered : ℕ → Candidate Name File HashDigest Marker → Prop) :
    Option (Candidate Name File HashDigest Marker) → Prop
  | none => ∀ index candidate, ¬ considered index candidate
  | some candidate => ∃ index, considered index candidate ∧
      ∀ otherIndex other, considered otherIndex other →
        Preferred highest index candidate otherIndex other

section Ranks

variable {hasCandidate : ℕ → Candidate Name File HashDigest Marker → Prop}
  {result : Option (Candidate Name File HashDigest Marker)}
  {items : List (VersionItem File HashDigest Marker)}

/-- The order for the highest version. -/
def rankHighest (version : ValidVersion) : VersionKeyᵒᵈ := OrderDual.toDual (OrdKey.key version)

/-- The order for the lowest version. -/
def rankLowest (version : ValidVersion) : VersionKey := OrdKey.key version

theorem rankHighest_eq_iff (version other : ValidVersion) :
    rankHighest version = rankHighest other ↔ SameKey version other :=
  OrderDual.toDual_inj

theorem rankLowest_eq_iff (version other : ValidVersion) :
    rankLowest version = rankLowest other ↔ SameKey version other := Iff.rfl

theorem preferred_of_preference {κ : Type*} [LinearOrder κ] {rank : ValidVersion → κ}
    {highest : Bool} {index otherIndex : ℕ}
    {candidate other : Candidate Name File HashDigest Marker}
    (heq : rank candidate.version = rank other.version → SameKey candidate.version other.version)
    (hlt : rank candidate.version < rank other.version →
      if highest then OrdKey.key other.version < OrdKey.key candidate.version
      else OrdKey.key candidate.version < OrdKey.key other.version)
    (hle : preference rank index candidate ≤ preference rank otherIndex other) :
    Preferred highest index candidate otherIndex other := by
  simp only [preference, Prod.Lex.toLex_le_toLex] at hle
  rcases hle with hrank | ⟨hrank, hkind | hindex⟩
  · exact .inl (hlt hrank)
  · exact .inr ⟨heq hrank, .inl (Bool.lt_iff.mp hkind)⟩
  · exact .inr ⟨heq hrank, .inr hindex⟩

theorem selectedFrom_of_isBest {κ : Type*} [LinearOrder κ] {rank : ValidVersion → κ}
    {highest : Bool}
    (heq : ∀ version other, rank version = rank other ↔ SameKey version other)
    (hlt : ∀ version other, rank version < rank other →
      if highest then OrdKey.key other < OrdKey.key version
      else OrdKey.key version < OrdKey.key other)
    (hbest : IsBest rank hasCandidate result) : SelectedFrom highest hasCandidate result := by
  cases result with
  | none => exact hbest
  | some candidate =>
      obtain ⟨index, hcandidate, hbest⟩ := hbest
      exact ⟨index, hcandidate, fun otherIndex other hother =>
        preferred_of_preference (heq _ _).mp (hlt _ _) (hbest otherIndex other hother)⟩

/-- An item of the merge comes before another one. -/
theorem first_iff (highest : Bool) (item other : VersionItem File HashDigest Marker) :
    item.first highest other = true ↔
      if highest then place rankHighest item < place rankHighest other
      else place rankLowest item < place rankLowest other := by
  have hcompare := OrdKey.compare_eq item.2.1 other.2.1
  rw [VersionItem.first]
  split
  · rename_i heq
    rw [heq, eq_comm, Order.linearCmp_eq_eq] at hcompare
    cases highest <;>
      simp [place, rankHighest, rankLowest, Prod.Lex.toLex_lt_toLex, hcompare]
  · rename_i hlt
    rw [hlt, eq_comm, Order.linearCmp_eq_lt] at hcompare
    cases highest <;>
      simp [place, rankHighest, rankLowest, Prod.Lex.toLex_lt_toLex, hcompare, hcompare.not_gt,
        hcompare.ne]
  · rename_i hgt
    rw [hgt, eq_comm, Order.linearCmp_eq_gt] at hcompare
    cases highest <;>
      simp [place, rankHighest, rankLowest, Prod.Lex.toLex_lt_toLex, hcompare, hcompare.not_gt,
        hcompare.ne']

/-- The scan of a sorted list selects the candidate that comes first. -/
theorem selectedFrom_selectCandidate (highest : Bool)
    (hsorted : items.Pairwise fun item other => other.first highest item = false) :
    SelectedFrom highest (HasCandidate packageName range allowPrerelease items)
      (selectCandidate packageName range allowPrerelease none (items.map Prod.snd)) := by
  cases highest with
  | true =>
      refine selectedFrom_of_isBest rankHighest_eq_iff ?_
        (selectCandidate_none rankHighest_eq_iff (hsorted.imp fun {item other} hfirst => ?_))
      · intro version other hlt
        exact OrderDual.toDual_lt_toDual.mp hlt
      · exact not_lt.mp fun hlt => absurd ((first_iff true other item).mpr hlt) (by simp [hfirst])
  | false =>
      refine selectedFrom_of_isBest rankLowest_eq_iff (fun _ _ hlt => hlt)
        (selectCandidate_none rankLowest_eq_iff (hsorted.imp fun {item other} hfirst => ?_))
      exact not_lt.mp fun hlt => absurd ((first_iff false other item).mpr hlt) (by simp [hfirst])

end Ranks

/-! ## The selection -/

namespace CandidateSelector

section Entries

variable {map : VersionMap (PrioritizedDist File HashDigest Marker)} {highest : Bool}

theorem mem_entries {Dist : Type} {map : VersionMap Dist}
    {entry : ValidVersion × Option Dist} :
    entry ∈ entries highest range map ↔ entry ∈ map.iter range.val := by
  rw [entries]
  split
  · exact List.mem_reverse
  · exact Iff.rfl

/-- The entries of a map give exactly the versions that can be selected. -/
theorem considered_iff {candidate : Candidate Name File HashDigest Marker} :
    (∃ entry ∈ entries highest range map,
      candidateOf packageName range allowPrerelease entry = some candidate) ↔
      Considered packageName range allowPrerelease map candidate := by
  constructor
  · rintro ⟨entry, hmem, hentry⟩
    obtain ⟨dist, rfl, hrest⟩ := candidateOf_eq_some_iff.mp hentry
    exact ⟨dist, mem_handles_of_mem_iter (mem_entries.mp hmem), hrest⟩
  · rintro ⟨dist, hmem, hcontains, hrest⟩
    exact ⟨_, mem_entries.mpr (mem_iter range.property hmem hcontains),
      candidateOf_eq_some_iff.mpr ⟨dist, rfl, hcontains, hrest⟩⟩

/-- The items of one map are sorted for the merge. -/
theorem pairwise_first (index : ℕ) :
    ((entries highest range map).map fun entry => (index, entry)).Pairwise
      fun item other => VersionItem.first highest item other = true := by
  refine List.pairwise_map.mpr ?_
  have hiter : (map.iter range.val).Pairwise fun entry other =>
      OrdKey.key entry.1 < OrdKey.key other.1 := iter_sorted
  cases highest with
  | true =>
      refine List.pairwise_reverse.mpr (hiter.imp fun {entry other} hlt => ?_)
      exact (first_iff true _ _).mpr (Prod.Lex.toLex_lt_toLex.mpr (.inl hlt))
  | false =>
      refine hiter.imp fun {entry other} hlt => ?_
      exact (first_iff false _ _).mpr (Prod.Lex.toLex_lt_toLex.mpr (.inl hlt))

theorem first_asymm {item other : VersionItem File HashDigest Marker}
    (hfirst : item.first highest other = true) : other.first highest item = false := by
  rw [Bool.eq_false_iff]
  intro hother
  rw [first_iff] at hfirst hother
  cases highest with
  | true => exact lt_asymm hfirst hother
  | false => exact lt_asymm hfirst hother

/-- The selection from one map. -/
theorem selectedFrom_map (index : ℕ) : SelectedFrom highest
    (fun i candidate => i = index ∧ Considered packageName range allowPrerelease map candidate)
    (selectCandidate packageName range allowPrerelease none (entries highest range map)) := by
  have hmap : ((entries highest range map).map fun entry => (index, entry)).map Prod.snd =
      entries highest range map := by simp
  have hhas : HasCandidate packageName range allowPrerelease
      ((entries highest range map).map fun entry => (index, entry)) =
        fun i candidate => i = index ∧
          Considered packageName range allowPrerelease map candidate := by
    funext i candidate
    refine propext ?_
    rw [← considered_iff]
    simp only [HasCandidate, List.mem_map, Prod.mk.injEq]
    constructor
    · rintro ⟨entry, ⟨_, hmem, rfl, rfl⟩, hentry⟩
      exact ⟨rfl, _, hmem, hentry⟩
    · rintro ⟨rfl, entry, hmem, hentry⟩
      exact ⟨entry, ⟨entry, hmem, rfl, rfl⟩, hentry⟩
  have hselected : SelectedFrom highest
      (HasCandidate packageName range allowPrerelease
        ((entries highest range map).map fun entry => (index, entry)))
      (selectCandidate packageName range allowPrerelease none
        (((entries highest range map).map fun entry => (index, entry)).map Prod.snd)) :=
    selectedFrom_selectCandidate highest ((pairwise_first index).imp first_asymm)
  rwa [hhas, hmap] at hselected

end Entries

/-- The documented behaviour of the merge: sorted lists are merged into a sorted list. -/
def MergesSorted
    (kmergeBy : (VersionItem File HashDigest Marker → VersionItem File HashDigest Marker → Bool) →
      List (List (VersionItem File HashDigest Marker)) →
        List (VersionItem File HashDigest Marker)) : Prop :=
  ∀ highest lists,
    (∀ list ∈ lists, list.Pairwise fun item other => VersionItem.first highest item other = true) →
    (kmergeBy (VersionItem.first highest) lists).Perm lists.flatten ∧
    (kmergeBy (VersionItem.first highest) lists).Pairwise
      fun item other => VersionItem.first highest other item = false

/-- The selection over all maps. -/
theorem selectedFrom_merge
    {kmergeBy : (VersionItem File HashDigest Marker → VersionItem File HashDigest Marker → Bool) →
      List (List (VersionItem File HashDigest Marker)) → List (VersionItem File HashDigest Marker)}
    (hmerges : MergesSorted kmergeBy) (highest : Bool)
    (versionMaps : List (VersionMap (PrioritizedDist File HashDigest Marker))) :
    SelectedFrom highest
      (fun index candidate => ∃ map, versionMaps[index]? = some map ∧
        Considered packageName range allowPrerelease map candidate)
      (selectCandidate packageName range allowPrerelease none
        ((kmergeBy (VersionItem.first highest) (versionMaps.zipIdx.map fun indexed =>
          (entries highest range indexed.1).map fun entry => (indexed.2, entry))).map
            Prod.snd)) := by
  obtain ⟨hperm, hsorted⟩ := hmerges highest (versionMaps.zipIdx.map fun indexed =>
      (entries highest range indexed.1).map fun entry => (indexed.2, entry)) (by
    intro list hlist
    obtain ⟨indexed, _, rfl⟩ := List.mem_map.mp hlist
    exact pairwise_first indexed.2)
  refine Eq.mp (congrArg (SelectedFrom highest · _) ?_)
    (selectedFrom_selectCandidate highest hsorted)
  funext index candidate
  refine propext ?_
  simp only [HasCandidate, hperm.mem_iff, List.mem_flatten, List.mem_map]
  constructor
  · rintro ⟨entry, ⟨_, ⟨⟨map, i⟩, hmap, rfl⟩, hentry⟩, hcandidate⟩
    obtain ⟨_, hmem, heq⟩ := List.mem_map.mp hentry
    obtain ⟨rfl, rfl⟩ := Prod.mk.inj heq
    exact ⟨map, List.mem_zipIdx_iff_getElem?.mp hmap,
      considered_iff.mp ⟨_, hmem, hcandidate⟩⟩
  · rintro ⟨map, hmap, hconsidered⟩
    obtain ⟨entry, hmem, hcandidate⟩ := considered_iff.mpr hconsidered
    exact ⟨entry, ⟨_, ⟨(map, index), List.mem_zipIdx_iff_getElem?.mpr hmap, rfl⟩,
      List.mem_map_of_mem hmem⟩, hcandidate⟩

/-- The first map from which something is selected. -/
theorem findSome_selectCandidate (highest : Bool)
    (versionMaps : List (VersionMap (PrioritizedDist File HashDigest Marker))) :
    let select (map : VersionMap (PrioritizedDist File HashDigest Marker)) :=
      selectCandidate packageName range allowPrerelease none (entries highest range map)
    (versionMaps.findSome? select = none ∧ ∀ map ∈ versionMaps, ∀ candidate,
      ¬ Considered packageName range allowPrerelease map candidate) ∨
    ∃ before map after, versionMaps = before ++ map :: after ∧
      (∀ earlier ∈ before, ∀ candidate,
        ¬ Considered packageName range allowPrerelease earlier candidate) ∧
      (∃ candidate, Considered packageName range allowPrerelease map candidate) ∧
      versionMaps.findSome? select = select map := by
  intro select
  have hnone (map : VersionMap (PrioritizedDist File HashDigest Marker)) (heq : select map = none)
      (candidate : Candidate Name File HashDigest Marker) :
      ¬ Considered packageName range allowPrerelease map candidate := by
    have hselected : SelectedFrom highest _ (select map) := selectedFrom_map 0
    rw [heq] at hselected
    exact fun hconsidered => hselected 0 candidate ⟨rfl, hconsidered⟩
  cases hfind : versionMaps.findSome? select with
  | none =>
      exact .inl ⟨rfl, fun map hmem =>
        hnone map (List.findSome?_eq_none_iff.mp hfind map hmem)⟩
  | some result =>
      obtain ⟨before, map, after, rfl, heq, hbefore⟩ := List.findSome?_eq_some_iff.mp hfind
      have hselected : SelectedFrom highest _ (select map) := selectedFrom_map 0
      rw [heq] at hselected
      obtain ⟨_, ⟨_, hconsidered⟩, _⟩ := hselected
      exact .inr ⟨before, map, after, rfl,
        fun earlier hmem => hnone earlier (hbefore earlier hmem), ⟨result, hconsidered⟩, heq.symm⟩

/-- Of the versions that can be selected the highest or lowest one is selected, in a compatible
entry if there is one, and of these in the first map.  All maps are looked at together, or the
first one that has such a version. -/
theorem selectNoPreference_spec
    {kmergeBy : (VersionItem File HashDigest Marker → VersionItem File HashDigest Marker → Bool) →
      List (List (VersionItem File HashDigest Marker)) → List (VersionItem File HashDigest Marker)}
    (hmerges : MergesSorted kmergeBy) (self : CandidateSelector Name) (packageName : Name)
    (range : VersionRange)
    (versionMaps : List (VersionMap (PrioritizedDist File HashDigest Marker))) :
    let highest := self.useHighestVersion packageName
    let considered := Considered packageName range (self.allowPrerelease packageName versionMaps)
    let result := self.selectNoPreference kmergeBy packageName range versionMaps
    if self.indexStrategy = .unsafeBestMatch then
      SelectedFrom highest
        (fun index candidate => ∃ map, versionMaps[index]? = some map ∧ considered map candidate)
        result
    else
      (result = none ∧ ∀ map ∈ versionMaps, ∀ candidate, ¬ considered map candidate) ∨
      ∃ before map after, versionMaps = before ++ map :: after ∧
        (∀ earlier ∈ before, ∀ candidate, ¬ considered earlier candidate) ∧
        (∃ candidate, considered map candidate) ∧
        SelectedFrom highest
          (fun index candidate => index = before.length ∧ considered map candidate) result := by
  intro highest considered result
  by_cases hstrategy : self.indexStrategy = .unsafeBestMatch
  · rw [if_pos hstrategy]
    have hresult : result = _ := if_pos hstrategy
    rw [hresult]
    exact selectedFrom_merge hmerges highest versionMaps
  · rw [if_neg hstrategy]
    have hresult : result = _ := if_neg hstrategy
    rw [hresult]
    refine (findSome_selectCandidate highest versionMaps).imp_right ?_
    rintro ⟨before, map, after, heq, hbefore, hconsidered, hfind⟩
    refine ⟨before, map, after, heq, hbefore, hconsidered, ?_⟩
    rw [hfind]
    exact selectedFrom_map before.length

/-- Sorting all items is a merge. -/
theorem mergesSorted_mergeSort : MergesSorted
    fun (first : VersionItem File HashDigest Marker → VersionItem File HashDigest Marker → Bool)
        lists => lists.flatten.mergeSort fun item other => !first other item := by
  intro highest lists _
  refine ⟨List.mergeSort_perm .., ?_⟩
  have hle (item other : VersionItem File HashDigest Marker) :
      (!VersionItem.first highest other item) = true ↔
        if highest then place rankHighest item ≤ place rankHighest other
        else place rankLowest item ≤ place rankLowest other := by
    rw [Bool.not_eq_true', Bool.eq_false_iff, Ne, first_iff]
    split
    · exact not_lt
    · exact not_lt
  refine (List.pairwise_mergeSort ?_ ?_ _).imp fun hfirst => by simpa using hfirst
  · intro item other third hfirst hsecond
    rw [hle] at hfirst hsecond ⊢
    cases highest with
    | true => exact le_trans hfirst hsecond
    | false => exact le_trans hfirst hsecond
  · intro item other
    rw [Bool.or_eq_true, hle, hle]
    cases highest with
    | true => exact le_total ..
    | false => exact le_total ..

/-- Two indexes without a distribution for `1.0`. -/
theorem selectNoPreference_spec_unavailable :
    let version : ValidVersion := .new [1, 0]
    let dist : PrioritizedDist Unit Unit Unit := ⟨none, none, [], [], ()⟩
    let map : VersionMap (PrioritizedDist Unit Unit Unit) :=
      .eager ⟨⟨[(version, dist)], List.pairwise_singleton ..⟩, true, false⟩
    let self : CandidateSelector Unit := ⟨.highest, fun _ => .no, .unsafeBestMatch⟩
    let range : VersionRange := ⟨.full, by
      simp [Ranges.Valid, Ranges.full, separated_cons, separated_nil, cutsOf, Bound.lowerCut,
        Bound.upperCut]⟩
    SelectedFrom true
      (fun index candidate => ∃ map', [map, map][index]? = some map' ∧
        Considered () range false map' candidate)
      (self.selectNoPreference
        (fun first lists => lists.flatten.mergeSort fun item other => !first other item) ()
        range [map, map]) := by
  intro version dist map self range
  exact selectNoPreference_spec mergesSorted_mergeSort self () range [map, map]

end CandidateSelector

end Uv.Resolver
