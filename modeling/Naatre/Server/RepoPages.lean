import Naatre.Lib.Oldest
import Naatre.Lib.Paging
import Naatre.Server.Reads

/-!
Following the cursors of `GET /v1/repos` (`routes/repos.rs`). A page is fetched
before it is filtered, so it may come back short or empty while more
repositories follow.
-/

namespace Naatre

section

variable {Id : Type} [Platform Id]

namespace Accounts

/-- `repos` as the table keeps it: `id` is its key and counts from one. -/
structure ReposKeyed (s : Accounts) : Prop where
  nodup : (s.repos.map Prod.fst).Nodup
  pos : ∀ row ∈ s.repos, 0 < row.1

/-- The repositories by ascending id. -/
def reposById (s : Accounts) : List (RepoId × String) := s.repos.insertionSort fun a b => a.1 ≤ b.1

/-- `list` shows the row. -/
def shows (s : Accounts) (auth : AuthedPrincipal) (row : RepoId × String) : Bool :=
  decide (auth.role = .admin) || !(s.accessVisibility row.1 auth.principal).1 ||
    (s.accessVisibility row.1 auth.principal).2

/-- What a caller follows: the page at the cursor a page before it named. -/
def repoPage (Id : Type) [Platform Id] (s : Accounts) (auth : AuthedPrincipal) (limit : Option ℤ)
    (cursor : Option RepoId) : Option (Lib.Page (RepoId × String) RepoId) :=
  match (s.listRepos auth limit (cursor.getD 0) : Except (ApiError Id) RepoListResponse) with
  | .ok page => some ⟨page.repos, page.nextCursor⟩
  | .error _ => none

variable {s : Accounts} {auth : AuthedPrincipal}

theorem ReposKeyed.ascending (hkeyed : s.ReposKeyed) :
    s.reposById.Pairwise fun a b => a.1 < b.1 := by
  have hsorted : s.reposById.Pairwise fun a b => a.1 ≤ b.1 :=
    List.pairwise_insertionSort (fun a b : RepoId × String => a.1 ≤ b.1) _
  have hnodup : (s.reposById.map Prod.fst).Nodup :=
    ((List.perm_insertionSort _ s.repos).map Prod.fst).nodup_iff.mpr hkeyed.nodup
  rw [List.Nodup, List.pairwise_map] at hnodup
  exact (hsorted.and hnodup).imp fun hab => lt_of_le_of_ne hab.1 hab.2

/-- The statement orders what the table holds behind the cursor. -/
theorem ReposKeyed.reposList (hkeyed : s.ReposKeyed) (after n : ℕ) :
    s.reposList after n =
      (s.reposById.filter fun row => decide (after < row.1)).take n := by
  have hfilter : (s.repos.filter fun row => decide (after < row.1)).insertionSort
      (fun a b => a.1 ≤ b.1) = s.reposById.filter fun row => decide (after < row.1) := by
    refine @List.Perm.eq_of_pairwise _ (fun a b : RepoId × String => a.1 < b.1) _ _
      (fun a b _ _ hab hba => absurd hab hba.asymm) ?_ (hkeyed.ascending.filter _) ?_
    · have hsub : ReposKeyed { s with
          repos := s.repos.filter fun row => decide (after < row.1) } :=
        ⟨hkeyed.nodup.sublist (List.filter_sublist.map _),
          fun row hrow => hkeyed.pos row (List.mem_filter.mp hrow).1⟩
      exact hsub.ascending
    · exact (List.perm_insertionSort _ _).trans
        ((List.perm_insertionSort _ s.repos).symm.filter _)
  rw [Accounts.reposList, hfilter]

/-- A page is the screened page at its cursor. -/
theorem ReposKeyed.repoPage (hkeyed : s.ReposKeyed) {limit : Option ℤ} {n : ℕ}
    (hlimit : (parseLimit limit : Except (ApiError Id) ℕ) = .ok n) (cursor : Option RepoId) :
    s.repoPage Id auth limit cursor =
      some (.screened Prod.fst (s.shows auth) n (cursor.getD 0) s.reposById) := by
  rw [Accounts.repoPage, listRepos, hlimit]
  simp only [Bind.bind, Except.bind, hkeyed.reposList]
  rw [Lib.Page.screened]
  congr 2
  split
  next hmore =>
    -- something was fetched, so the cursor never falls back on its start
    obtain ⟨row, hrow⟩ : ∃ row, ((s.reposById.filter fun row =>
        decide (cursor.getD 0 < row.1)).take (n + 1)).getLast? = some row := by
      rw [← Option.isSome_iff_exists, List.getLast?_isSome]
      intro hnil
      rw [hnil, List.length_nil] at hmore
      exact absurd (of_decide_eq_true hmore) (Nat.not_lt_zero _)
    rw [if_pos (of_decide_eq_true hmore), hrow]
    rfl
  next hmore => rw [if_neg (fun h => hmore (decide_eq_true h))]

/-- Following the cursors from the start ends, in one way, and lists what the
caller sees once each, by ascending id. -/
theorem repoPages_complete (hkeyed : s.ReposKeyed) {limit : Option ℤ} {n : ℕ}
    (hlimit : (parseLimit limit : Except (ApiError Id) ℕ) = .ok n) :
    ∃ listed, (∀ rows, Lib.Follow (s.repoPage Id auth limit) none rows ↔ rows = listed) ∧
      listed.Pairwise (fun a b => a.1 < b.1) ∧
      ∀ row, row ∈ listed ↔ row ∈ s.repos ∧ s.shows auth row = true := by
  have hpage : ∀ cursor, s.repoPage Id auth limit cursor =
      some (.screened Prod.fst (s.shows auth) n (cursor.getD 0) s.reposById) :=
    hkeyed.repoPage hlimit
  have hfollow := Lib.follow_screened hkeyed.ascending (parseLimit_pos hlimit) hpage none
  have hall : (s.reposById.filter fun row => decide ((none : Option RepoId).getD 0 < row.1)) =
      s.reposById := by
    rw [List.filter_eq_self]
    intro row hrow
    exact decide_eq_true (hkeyed.pos row ((List.mem_insertionSort _).mp hrow))
  rw [hall] at hfollow
  refine ⟨s.reposById.filter (s.shows auth), fun rows => ⟨fun h => h.unique hfollow, ?_⟩,
    hkeyed.ascending.filter _, fun row => ?_⟩
  · rintro rfl
    exact hfollow
  · rw [List.mem_filter, reposById, List.mem_insertionSort]

end Accounts

end

/-- Three private repositories in a row, and pages of one. -/
def gapped : Accounts :=
  ⟨[(5, "e"), (1, "a"), (2, "b"), (4, "d"), (3, "c")], [], [],
    [⟨2, "ann", true, false⟩, ⟨3, "ann", true, false⟩, ⟨4, "ann", true, false⟩]⟩

theorem repoPages_complete_gapped : ∃ listed,
    (∀ rows, Lib.Follow (gapped.repoPage PlainId ⟨"bob", .reader, none⟩ (some 1)) none rows ↔
      rows = listed) ∧ (1, "a") ∈ listed ∧ (5, "e") ∈ listed ∧ (4, "d") ∉ listed := by
  obtain ⟨listed, hfollow, -, hmem⟩ := @Accounts.repoPages_complete PlainId _ gapped
    ⟨"bob", .reader, none⟩ ⟨by decide, by decide⟩ (some 1) 1 rfl
  refine ⟨listed, hfollow, (hmem _).mpr (by decide), (hmem _).mpr (by decide), fun h => ?_⟩
  exact absurd ((hmem _).mp h) (by decide)

end Naatre
