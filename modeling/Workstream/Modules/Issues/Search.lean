import Workstream.Modules.Tracker.Listings

/-!
# The search filter

The text that a client searches for goes into a pattern as it is.
-/

namespace Workstream.Issues

open ReadCommitted Text

/-- The issue has the text in its title and description, in any letter case. -/
def Contains (P : Platform) (search : String) (i : Issue) : Prop :=
  (search.toList.map P.lowerCase) <:+: ((searchText i).map P.lowerCase)

section Search

variable {P : Platform} {search : String} {i : Issue}

/-- The `WHERE` clause of a search alone. -/
theorem matches_search (hne : search ≠ "") :
    ({ search := some search } : Filters).matches P i = true ↔
      like ('%' :: (search.toList.map P.lowerCase ++ ['%']))
        ((searchText i).map P.lowerCase) = true := by
  have hpercent : P.lowerCase '%' = '%' :=
    (P.lowerCase_eq '%' '%' (by simp)).mpr rfl
  simp [Filters.matches, hne, ilike, hpercent]

/-- An issue that the pattern of a text with wildcards finds. -/
def decoy (search : String) : Issue where
  id := 60
  organizationId := 2
  projectId := 50
  number := 1
  title := "a"
  description := String.ofList (sample 'a' search.toList)
  reporterId := 1
  createdAt := 0
  updatedAt := 0

theorem searchText_decoy :
    searchText (decoy search) = ['a', ' '] ++ sample 'a' search.toList := by
  have hdescription : (decoy search).description.toList =
      sample 'a' search.toList := String.toList_ofList
  have htitle : (decoy search).title.toList = ['a'] := by
    change "a".toList = ['a']
    decide
  rw [searchText, hdescription, htitle, List.append_assoc]
  rfl

theorem matches_decoy (hne : search ≠ "") :
    ({ search := some search } : Filters).matches P (decoy search) = true := by
  rw [matches_search hne]
  refine like_percent.mpr
    ⟨(sample 'a' search.toList).map P.lowerCase, ?_, ?_⟩
  · rw [searchText_decoy, List.map_append]
    exact List.suffix_append _ _
  · rw [map_sample P.lowerCase_eq]
    exact like_sample _ _

/-- It weighs less than the text. -/
theorem not_contains_decoy (h : ∃ c ∈ search.toList, isMeta c = true) :
    ¬ Contains P search (decoy search) := by
  intro hcontains
  have hle := totalWeight_le hcontains
  have hlt := (weight_sample (show weight 'a' = 0 from rfl) search.toList).2 h
  have htext : totalWeight (searchText (decoy search)) =
      totalWeight (sample 'a' search.toList) := by
    have hletter : weight 'a' = 0 := rfl
    have hblank : weight ' ' = 0 := rfl
    rw [searchText_decoy, List.cons_append, List.cons_append, List.nil_append,
      totalWeight, totalWeight, hletter, hblank]
    omega
  rw [totalWeight_map P.lowerCase_eq, totalWeight_map P.lowerCase_eq,
    htext] at hle
  omega

/-- The filter looks for the text itself exactly if the text has no wildcards
and no backslashes. -/
theorem search_iff (P : Platform) (search : String) (hne : search ≠ "") :
    (∀ i, ({ search := some search } : Filters).matches P i = true ↔
      Contains P search i) ↔ ∀ c ∈ search.toList, isMeta c = false := by
  constructor
  · intro hall
    by_contra hmeta
    have hexists : ∃ c ∈ search.toList, isMeta c = true := by
      simpa using hmeta
    exact not_contains_decoy hexists ((hall _).mp (matches_decoy hne))
  · intro hplain i
    rw [matches_search hne]
    apply like_infix_iff
    intro c hc
    obtain ⟨x, hx, rfl⟩ := List.mem_map.mp hc
    rw [isMeta_fold P.lowerCase_eq]
    exact hplain x hx

end Search

theorem search_iff_bug :
    (∀ i, ({ search := some "Bug" } : Filters).matches libraries i = true ↔
      Contains libraries "Bug" i) ↔ ∀ c ∈ "Bug".toList, isMeta c = false :=
  search_iff libraries "Bug" (by decide)

def task : Issue where
  id := 60
  organizationId := 2
  projectId := 50
  number := 1
  title := "Task"
  reporterId := 1
  createdAt := 0
  updatedAt := 0

/-- A search for an underscore finds an issue without one. -/
theorem search_underscore :
    ¬ ∀ (P : Platform) (search : String), search ≠ "" → ∀ i,
      ({ search := some search } : Filters).matches P i = true ↔
        Contains P search i := by
  intro hall
  have hfound : ({ search := some "_" } : Filters).matches libraries task =
      true := by
    decide +kernel
  have hcontains : ¬ Contains libraries "_" task := by
    unfold Contains
    decide +kernel
  exact hcontains ((hall libraries "_" (by decide) task).mp hfound)

end Workstream.Issues
