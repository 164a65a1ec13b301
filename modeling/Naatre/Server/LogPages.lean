import Naatre.Core.Plain
import Naatre.Lib.Paging
import Naatre.Server.Ancestry
import Naatre.Server.CreateFrame
import Naatre.Server.Log

/-!
The pages of the two logs. Following the cursors of the plain log reads the
first-parent chain of where it started, without its tombstoned changesets;
following those of a path's log reads the unmarked changesets that touch the
path, newest first, and the derived index answers what the scan of the file
changes does.
-/

namespace Naatre

section

variable {Id : Type} [Platform Id]

/-! ### The first-parent chain -/

/-- The stored first-parent chain from a start. -/
inductive FirstParents (db : RepoTables Id) : Option Id → List (ChangesetRow Id) → Prop
  | none : FirstParents db none []
  | gone {id : Id} (hget : changesetGet db id = none) : FirstParents db (some id) []
  | row {id : Id} {row : ChangesetRow Id} {chain : List (ChangesetRow Id)}
      (hget : changesetGet db id = some row) (hrest : FirstParents db row.parents.head? chain) :
      FirstParents db (some id) (row :: chain)

/-- The entries of a chain that carry no tombstone. -/
def visible (db : RepoTables Id) (chain : List (ChangesetRow Id)) : List (LogEntry Id) :=
  (chain.filter fun row => !redactionActive db row.id).map ChangesetRow.logEntry

theorem FirstParents.exists {db : RepoTables Id} {rank : Id → ℕ} (hrank : RankedBy db rank)
    (start : Option Id) : ∃ chain, FirstParents db start chain := by
  cases start with
  | none => exact ⟨[], .none⟩
  | some id =>
      induction hn : rank id using Nat.strongRecOn generalizing id with
      | _ n ih =>
      cases hget : changesetGet db id with
      | none => exact ⟨[], .gone hget⟩
      | some row =>
          cases hhead : row.parents.head? with
          | none =>
              refine ⟨[row], .row hget ?_⟩
              rw [hhead]
              exact .none
          | some next =>
              obtain ⟨hmem, hid⟩ := changesetGet_some hget
              have hlt := hrank row hmem next (List.mem_of_head? hhead)
              rw [hid, hn] at hlt
              obtain ⟨chain, hchain⟩ := ih _ hlt next rfl
              exact ⟨row :: chain, .row hget (hhead ▸ hchain)⟩

theorem FirstParents.mem {db : RepoTables Id} {start : Option Id} {chain : List (ChangesetRow Id)}
    (h : FirstParents db start chain) {row : ChangesetRow Id} (hrow : row ∈ chain) :
    row ∈ db.changesets := by
  induction h with
  | none => exact absurd hrow List.not_mem_nil
  | gone => exact absurd hrow List.not_mem_nil
  | row hget _ ih =>
      rcases List.mem_cons.mp hrow with rfl | hrow
      · exact (changesetGet_some hget).1
      · exact ih hrow

/-- No changeset comes twice. -/
theorem FirstParents.ranked {db : RepoTables Id} {rank : Id → ℕ} (hrank : RankedBy db rank)
    {start : Option Id} {chain : List (ChangesetRow Id)} (h : FirstParents db start chain) :
    (chain.Pairwise fun a b => rank b.id < rank a.id) ∧
      ∀ id, start = some id → ∀ row ∈ chain, rank row.id ≤ rank id := by
  induction h with
  | none => exact ⟨.nil, fun id hid => nomatch hid⟩
  | gone => exact ⟨.nil, fun id _ row hrow => absurd hrow List.not_mem_nil⟩
  | @row id row chain hget hrest ih =>
      obtain ⟨hmem, hid⟩ := changesetGet_some hget
      have hbelow : ∀ b ∈ chain, rank b.id < rank row.id := by
        intro b hb
        cases hhead : row.parents.head? with
        | none =>
            rw [hhead] at hrest
            cases hrest
            exact absurd hb List.not_mem_nil
        | some next =>
            have hle := ih.2 next hhead b hb
            have hlt := hrank row hmem next (List.mem_of_head? hhead)
            omega
      refine ⟨List.pairwise_cons.mpr ⟨hbelow, ih.1⟩, ?_⟩
      rintro _ ⟨⟩ b hb
      rcases List.mem_cons.mp hb with rfl | hb
      · rw [hid]
      · have hlt := hbelow b hb
        rw [hid] at hlt
        exact hlt.le

theorem FirstParents.nodup {db : RepoTables Id} {rank : Id → ℕ} (hrank : RankedBy db rank)
    {start : Option Id} {chain : List (ChangesetRow Id)} (h : FirstParents db start chain) :
    (chain.map (·.id)).Nodup := by
  rw [List.Nodup, List.pairwise_map]
  refine (h.ranked hrank).1.imp fun hlt heq => ?_
  rw [heq] at hlt
  exact absurd hlt (lt_irrefl _)

/-- A chain is no longer than the table it is read from. -/
theorem FirstParents.length_le {db : RepoTables Id} {rank : Id → ℕ} (hrank : RankedBy db rank)
    {start : Option Id} {chain : List (ChangesetRow Id)} (h : FirstParents db start chain) :
    chain.length ≤ db.changesets.length := by
  have hsub : chain.map (·.id) ⊆ db.changesets.map (·.id) := by
    intro id hid
    obtain ⟨row, hrow, rfl⟩ := List.mem_map.mp hid
    exact List.mem_map_of_mem (h.mem hrow)
  have hlen := (List.subperm_of_subset (h.nodup hrank) hsub).length_le
  rwa [List.length_map, List.length_map] at hlen

/-- What remains of a chain behind one of its changesets. -/
theorem FirstParents.behind {db : RepoTables Id} {start : Option Id}
    {pre post : List (ChangesetRow Id)} {row : ChangesetRow Id}
    (h : FirstParents db start (pre ++ row :: post)) :
    changesetGet db row.id = some row ∧ FirstParents db row.parents.head? post := by
  induction pre generalizing start with
  | nil =>
      cases h with
      | row hget hrest => exact ⟨(changesetGet_some hget).2 ▸ hget, hrest⟩
  | cons first pre ih =>
      cases h with
      | row hget hrest => exact ih hrest

/-- The walk reads what of the chain carries no tombstone, up to its limit. -/
theorem logChain_spec {db : RepoTables Id} {limit : ℕ} {start : Option Id}
    {chain : List (ChangesetRow Id)} (h : FirstParents db start chain) {id : Id}
    (hstart : start = some id) {fuel : ℕ} (hfuel : chain.length < fuel) {rows : List (LogEntry Id)}
    (hrows : rows.length < limit) :
    logChain db limit fuel id rows = some ((rows ++ visible db chain).take limit) := by
  induction h generalizing id fuel rows with
  | none => cases hstart
  | gone hget =>
      cases hstart
      obtain ⟨fuel, rfl⟩ := Nat.exists_eq_succ_of_ne_zero (Nat.ne_zero_of_lt hfuel)
      simp only [logChain, hget]
      rw [visible, List.filter_nil, List.map_nil, List.append_nil,
        List.take_of_length_le hrows.le]
  | @row id row chain hget hrest ih =>
      cases hstart
      obtain ⟨fuel, rfl⟩ := Nat.exists_eq_succ_of_ne_zero (Nat.ne_zero_of_lt hfuel)
      rw [List.length_cons] at hfuel
      have hid := (changesetGet_some hget).2
      -- the rest of the walk, whatever this changeset added to the rows
      have hwalk : ∀ (rows' : List (LogEntry Id)) (result : Option (List (LogEntry Id))),
          rows'.length < limit →
          (∀ next, row.parents.head? = some next → result = logChain db limit fuel next rows') →
          (row.parents.head? = none → result = some rows') →
          result = some ((rows' ++ visible db chain).take limit) := by
        intro rows' result hlen hnext hend
        cases hhead : row.parents.head? with
        | some next =>
            rw [hnext next hhead]
            exact ih hhead (by omega) hlen
        | none =>
            rw [hend hhead]
            rw [hhead] at hrest
            cases hrest
            show some rows' = some ((rows' ++ []).take limit)
            rw [List.append_nil, List.take_of_length_le hlen.le]
      cases hred : redactionActive db id with
      | true =>
          have hskip : visible db (row :: chain) = visible db chain := by
            rw [visible, List.filter_cons, hid, hred]
            rfl
          simp only [logChain, hget, hred, if_true, Bool.true_eq_false, false_and, if_false]
          rw [hskip]
          exact hwalk rows _ hrows (fun next hnext => by rw [hnext]) fun hend => by rw [hend]
      | false =>
          have htake : visible db (row :: chain) = row.logEntry :: visible db chain := by
            rw [visible, List.filter_cons, hid, hred]
            rfl
          have hcons : rows ++ visible db (row :: chain) =
              (rows ++ [row.logEntry]) ++ visible db chain := by
            rw [htake, List.append_assoc]
            rfl
          simp only [logChain, hget, hred, Bool.false_eq_true, if_false, true_and]
          rw [hcons]
          by_cases hfull : limit ≤ (rows ++ [row.logEntry]).length
          · have hexact : (rows ++ [row.logEntry]).length = limit := by
              rw [List.length_append, List.length_singleton] at hfull ⊢
              omega
            rw [if_pos hfull, ← hexact, List.take_left]
          · rw [if_neg hfull]
            exact hwalk _ _ (Nat.lt_of_not_le hfull) (fun next hnext => by rw [hnext]) fun hend => by
              rw [hend]

/-- The page of a read that fetched one row more than it serves. -/
def LogResponse.page (r : LogResponse Id) : Lib.Page (LogEntry Id) Id :=
  { entries := r.entries, next := r.nextCursor }

omit [Platform Id] in
theorem logResponse_front (limit : ℕ) (xs : List (LogEntry Id)) (poisonedCs : List Id) :
    (logResponse limit (xs.take (limit + 1)) poisonedCs).page = .front LogEntry.id limit xs := by
  have htake : (xs.take (limit + 1)).take limit = xs.take limit := by
    rw [List.take_take, Nat.min_eq_left (Nat.le_succ limit)]
  have hmore : limit < (xs.take (limit + 1)).length ↔ limit < xs.length := by
    rw [List.length_take]
    omega
  simp only [logResponse, LogResponse.page, Lib.Page.front, htake, hmore, decide_eq_true_eq]

/-- The plain log as a server of pages. -/
def logPages (cx : RepoCx Id) (fuel : ℕ) (start : Option Id) (limit : Option ℤ)
    (cursor : Option Id) : Option (Lib.Page (LogEntry Id) Id) :=
  match log cx fuel ⟨start, limit, cursor, none⟩ with
  | some (.ok r) => some r.page
  | _ => none

/-- What the plain log has left at a cursor. -/
def LogServes (cx : RepoCx Id) (start : Option Id) (limit : Option ℤ) (cursor : Option Id)
    (xs : List (LogEntry Id)) : Prop :=
  ∃ first chain, logStart cx ⟨start, limit, cursor, none⟩ = .ok first ∧
    FirstParents cx.db first chain ∧ xs = visible cx.db chain

theorem log_paged {cx : RepoCx Id} {rank : Id → ℕ} (hrank : RankedBy cx.db rank) {fuel : ℕ}
    (hfuel : cx.db.changesets.length < fuel) {start : Option Id} {limit : Option ℤ} {n : ℕ}
    (hlimit : parseLimit limit = (.ok n : Except (ApiError Id) ℕ)) :
    Lib.Paged (logPages cx fuel start limit) LogEntry.id n (LogServes cx start limit) where
  answer := by
    rintro cursor xs ⟨first, chain, hfirst, hchain, rfl⟩
    rw [logPages, log, hlimit]
    simp only [hfirst]
    cases first with
    | none =>
        cases hchain
        show some (logResponse n [] []).page = _
        rw [← logResponse_front n _ []]
        rfl
    | some id =>
        have hshort := Nat.lt_of_le_of_lt (hchain.length_le hrank) hfuel
        have hwalk : logChain cx.db (n + 1) fuel id [] =
            some (([] ++ visible cx.db chain).take (n + 1)) :=
          logChain_spec hchain rfl hshort (Nat.succ_pos n)
        show (match (logChain cx.db (n + 1) fuel id []).map
            (fun rows => Except.ok (ε := ApiError Id) (logResponse n rows [])) with
          | some (.ok r) => some r.page
          | _ => none) = _
        rw [hwalk]
        exact congrArg some (logResponse_front n _ [])
  resume := by
    rintro cursor xs y ys ⟨first, chain, -, hchain, hsplit⟩
    obtain ⟨front, back, hfilter, -, hback⟩ := List.map_eq_append_iff.mp hsplit.symm
    obtain ⟨row, back, rfl, rfl, rfl⟩ := List.map_eq_cons_iff.mp hback
    obtain ⟨pre, post, rfl, -, hpost⟩ := List.filter_eq_append_iff.mp hfilter
    obtain ⟨skipped, rest, rfl, -, -, hrest⟩ := List.filter_eq_cons_iff.mp hpost
    have hwhole : FirstParents cx.db first ((pre ++ skipped) ++ row :: rest) := by
      rw [List.append_assoc]
      exact hchain
    obtain ⟨hget, hbehind⟩ := hwhole.behind
    refine ⟨row.parents.head?, rest, ?_, hbehind, ?_⟩
    · show logStart cx ⟨start, limit, some row.id, none⟩ = _
      simp only [logStart, hget]
    · rw [visible, hrest]

/-! ### The order of a path's history -/

theorem newerFirst_total (a b : ℕ × Id) : newerFirst a b ∨ newerFirst b a := by
  rcases lt_trichotomy a.1 b.1 with hlt | heq | hgt
  · exact .inr (.inl hlt)
  · rcases le_total a.2 b.2 with hle | hge
    · exact .inl (.inr ⟨heq, hle⟩)
    · exact .inr (.inr ⟨heq.symm, hge⟩)
  · exact .inl (.inl hgt)

theorem newerFirst_trans {a b c : ℕ × Id} (hab : newerFirst a b) (hbc : newerFirst b c) :
    newerFirst a c := by
  rcases hab with hab | ⟨hab, hab'⟩ <;> rcases hbc with hbc | ⟨hbc, hbc'⟩
  · exact .inl (hbc.trans hab)
  · exact .inl (hbc ▸ hab)
  · exact .inl (hab ▸ hbc)
  · exact .inr ⟨hab.trans hbc, hab'.trans hbc'⟩

theorem newerFirst_antisymm {a b : ℕ × Id} (hab : newerFirst a b) (hba : newerFirst b a) :
    a = b := by
  rcases hab with hab | ⟨hab, hab'⟩ <;> rcases hba with hba | ⟨hba, hba'⟩
  · exact absurd hab (lt_asymm hba)
  · exact absurd hab (hba ▸ lt_irrefl _)
  · exact absurd hba (hab ▸ lt_irrefl _)
  · exact Prod.ext hab (le_antisymm hab' hba')

/-- Behind a row is after it in the order, and not at it. -/
theorem behind_iff {a b : ℕ × Id} :
    behind (some a) b.1 b.2 = true ↔ newerFirst a b ∧ a ≠ b := by
  rw [behind, decide_eq_true_iff]
  constructor
  · rintro (hlt | ⟨heq, hlt⟩)
    · exact ⟨.inl hlt, fun h => absurd hlt (h ▸ lt_irrefl _)⟩
    · exact ⟨.inr ⟨heq.symm, hlt.le⟩, fun h => absurd hlt (h ▸ lt_irrefl _)⟩
  · rintro ⟨hlt | ⟨heq, hle⟩, hne⟩
    · exact .inl hlt
    · exact .inr ⟨heq.symm, lt_of_le_of_ne hle fun h => hne (Prod.ext heq h)⟩

section Sorted

variable {ρ : Type} {columns : ρ → ℕ × Id}

theorem newestFirst_perm (columns : ρ → ℕ × Id) (rows : List ρ) :
    (newestFirst columns rows).Perm rows :=
  List.perm_insertionSort _ rows

theorem newestFirst_pairwise (columns : ρ → ℕ × Id) (rows : List ρ) :
    (newestFirst columns rows).Pairwise fun a b => newerFirst (columns a) (columns b) := by
  have htotal : Std.Total fun a b : ρ => newerFirst (columns a) (columns b) :=
    ⟨fun a b => newerFirst_total _ _⟩
  have htrans : IsTrans ρ fun a b => newerFirst (columns a) (columns b) :=
    ⟨fun a b c => newerFirst_trans⟩
  exact List.pairwise_insertionSort _ rows

/-- Rows with distinct columns have one order. -/
theorem newestFirst_unique {rows sorted : List ρ} (hkeys : (rows.map columns).Nodup)
    (hperm : sorted.Perm rows)
    (hsorted : sorted.Pairwise fun a b => newerFirst (columns a) (columns b)) :
    newestFirst columns rows = sorted := by
  have hperm' := (newestFirst_perm columns rows).trans hperm.symm
  refine hperm'.eq_of_pairwise (fun a b ha hb hab hba => ?_) (newestFirst_pairwise columns rows)
    hsorted
  exact List.inj_on_of_nodup_map hkeys ((newestFirst_perm columns rows).subset ha)
    (hperm.subset hb) (newerFirst_antisymm hab hba)

theorem newestFirst_filter {rows : List ρ} (hkeys : (rows.map columns).Nodup) (p : ρ → Bool) :
    newestFirst columns (rows.filter p) = (newestFirst columns rows).filter p :=
  newestFirst_unique (hkeys.sublist (List.filter_sublist.map columns))
    ((newestFirst_perm columns rows).filter p)
    ((newestFirst_pairwise columns rows).sublist List.filter_sublist)

theorem newestFirst_map {σ : Type} {columns' : σ → ℕ × Id} {f : σ → ρ} {rows : List σ}
    (h : ∀ a ∈ rows, columns' a = columns (f a)) :
    (newestFirst columns' rows).map f = newestFirst columns (rows.map f) := by
  refine List.map_insertionSort _ _ f rows fun a ha b hb => ?_
  rw [h a ha, h b hb]

end Sorted

/-! ### The history of a path -/

/-- The unmarked changesets that touch a path, newest first. -/
def touching (db : RepoTables Id) (path : Path) : List (ChangesetRow Id) :=
  newestFirst (fun row => (row.generation, row.id)) (db.changesets.filter fun row =>
    row.changes.any (fun c => decide (c.path = path)) && !changesetMarked db row.id)

theorem TablesWf.columns {db : RepoTables Id} (h : TablesWf db) :
    (db.changesets.map fun row => (row.generation, row.id)).Nodup := by
  have hids := h.ids
  rw [List.Nodup, List.pairwise_map] at hids ⊢
  exact hids.imp fun hne heq => hne (congrArg Prod.snd heq)

/-- Strictly newer first: none of them comes twice. -/
theorem touching_ordered {db : RepoTables Id} (h : TablesWf db) (path : Path) :
    (touching db path).Pairwise fun a b =>
      behind (some (a.generation, a.id)) b.generation b.id = true := by
  have hsub : ((touching db path).map fun row => (row.generation, row.id)).Nodup :=
    ((newestFirst_perm _ _).map _).nodup_iff.mpr
      (h.columns.sublist (List.filter_sublist.map _))
  rw [List.Nodup, List.pairwise_map] at hsub
  exact ((newestFirst_pairwise _ _).and hsub).imp fun hab => behind_iff.mpr hab

/-- A frame names a path at most once. -/
theorem ChangesetRow.Wf.touches {row : ChangesetRow Id} (h : row.Wf) (path : Path) :
    (row.changes.filter fun c => decide (c.path = path)).map (fun _ => row) =
      if row.changes.any (fun c => decide (c.path = path)) then [row] else [] := by
  have hdistinct : row.changes.Pairwise fun c d => c.path ≠ d.path := by
    rw [h.changes]
    exact (Frame.ordered row.canonical).imp fun hordered => hordered.1
  generalize row.changes = changes at hdistinct
  induction changes with
  | nil => rfl
  | cons c changes ih =>
      obtain ⟨hhead, htail⟩ := List.pairwise_cons.mp hdistinct
      rw [List.filter_cons, List.any_cons]
      by_cases hpath : c.path = path
      · have hrest : changes.filter (fun d => decide (d.path = path)) = [] := by
          rw [List.filter_eq_nil_iff]
          intro d hd heq
          exact hhead d hd (hpath.trans (of_decide_eq_true heq).symm)
        rw [if_pos (decide_eq_true hpath), hrest, decide_eq_true hpath, Bool.true_or, if_pos rfl]
        rfl
      · rw [if_neg (by simpa using hpath), decide_eq_false hpath, Bool.false_or]
        exact ih htail

/-- The scan answers the front of what of the history lies behind its cursor. -/
theorem pathHistoryScan_eq {db : RepoTables Id} (h : TablesWf db) (path : Path)
    (after : Option (ℕ × Id)) (limit : ℕ) :
    pathHistoryScan db path after limit =
      (((touching db path).filter fun row => behind after row.generation row.id).map
        ChangesetRow.logEntry).take limit := by
  have hjoined : (db.changesets.flatMap fun row =>
      (row.changes.filter fun c => decide (c.path = path) && behind after row.generation row.id &&
        !changesetMarked db row.id).map fun _ => row) =
      (db.changesets.filter fun row => row.changes.any (fun c => decide (c.path = path)) &&
        !changesetMarked db row.id).filter fun row => behind after row.generation row.id := by
    rw [List.filter_filter]
    have hrows := h.rows
    generalize db.changesets = rows at hrows
    induction rows with
    | nil => rfl
    | cons row rows ih =>
        have hone := (hrows row List.mem_cons_self).touches path
        rw [List.flatMap_cons, List.filter_cons,
          ih fun row' hrow => hrows row' (List.mem_cons_of_mem _ hrow)]
        cases hbehind : behind after row.generation row.id <;>
          cases hmarked : changesetMarked db row.id
        · simp
        · simp
        · simp only [Bool.and_true, Bool.not_false, hone, Bool.true_and]
          split_ifs <;> rfl
        · simp
  have hkeys : ((db.changesets.filter fun row =>
      row.changes.any (fun c => decide (c.path = path)) && !changesetMarked db row.id).map
        fun row => (row.generation, row.id)).Nodup :=
    h.columns.sublist (List.filter_sublist.map _)
  simp only [pathHistoryScan, hjoined]
  rw [newestFirst_filter hkeys, List.map_take]
  rfl

/-! ### The derived index -/

/-- The index holds nothing but file changes of the stored changesets, each
once. Rows of changesets that are gone may be left in it. -/
structure Indexed (db : RepoTables Id) (history : List (HistoryRow Id)) : Prop where
  keys : (history.map fun h => (h.path, h.gen, h.cs)).Nodup
  sound : ∀ h ∈ history, ∀ row, changesetGet db h.cs = some row →
    h.gen = row.generation ∧ row.changes.any (fun c => decide (c.path = h.path)) = true

/-- It holds them all. -/
structure Derived (db : RepoTables Id) (history : List (HistoryRow Id)) : Prop
    extends Indexed db history where
  complete : ∀ row ∈ db.changesets, ∀ c ∈ row.changes,
    ∃ h ∈ history, h.path = c.path ∧ h.cs = row.id

/-- The stored changesets an index lists at a path. -/
theorem Derived.listed {db : RepoTables Id} {history : List (HistoryRow Id)}
    (h : Derived db history) (hwf : TablesWf db) (path : Path) (after : Option (ℕ × Id)) :
    ((history.filter fun e => decide (e.path = path) && behind after e.gen e.cs &&
        !changesetMarked db e.cs).filterMap fun e => changesetGet db e.cs).Perm
      ((db.changesets.filter fun row => row.changes.any (fun c => decide (c.path = path)) &&
        !changesetMarked db row.id).filter fun row => behind after row.generation row.id) := by
  have hnodup : ((history.filter fun e => decide (e.path = path) && behind after e.gen e.cs &&
      !changesetMarked db e.cs).filterMap fun e => changesetGet db e.cs).Nodup := by
    have hkeys := h.keys
    rw [List.Nodup, List.pairwise_map] at hkeys
    rw [List.Nodup, List.pairwise_filterMap, List.pairwise_filter]
    refine hkeys.imp_of_mem fun {a b} ha hb hne hpa hpb row hrow row' hrow' heq => hne ?_
    -- one changeset at one path is one key
    subst heq
    simp only [Bool.and_eq_true, decide_eq_true_eq] at hpa hpb
    rw [hpa.1.1, hpb.1.1, (h.sound a ha row hrow).1, (h.sound b hb row hrow').1,
      ← (changesetGet_some hrow).2, ← (changesetGet_some hrow').2]
  have hnodup' : ((db.changesets.filter fun row =>
      row.changes.any (fun c => decide (c.path = path)) && !changesetMarked db row.id).filter
        fun row => behind after row.generation row.id).Nodup :=
    ((List.Nodup.of_map _ hwf.ids).filter _).filter _
  rw [List.perm_ext_iff_of_nodup hnodup hnodup']
  intro row
  rw [List.mem_filterMap, List.mem_filter, List.mem_filter]
  simp only [List.mem_filter, Bool.and_eq_true, decide_eq_true_eq]
  constructor
  · rintro ⟨e, ⟨he, ⟨hpath, hbehind⟩, hmarked⟩, hget⟩
    obtain ⟨hmem, hid⟩ := changesetGet_some hget
    obtain ⟨hgen, htouches⟩ := h.sound e he row hget
    rw [hpath] at htouches
    exact ⟨⟨hmem, htouches, hid ▸ hmarked⟩, hgen ▸ hid ▸ hbehind⟩
  · rintro ⟨⟨hmem, htouches, hmarked⟩, hbehind⟩
    obtain ⟨c, hc, hpath⟩ := List.any_eq_true.mp htouches
    obtain ⟨e, he, hepath, hecs⟩ := h.complete row hmem c hc
    have hget : changesetGet db e.cs = some row := hecs ▸ hwf.get hmem
    obtain ⟨hgen, -⟩ := h.sound e he row hget
    refine ⟨e, ⟨he, ⟨hepath.trans (of_decide_eq_true hpath), ?_⟩, ?_⟩, hget⟩
    · rw [hgen, hecs]
      exact hbehind
    · rw [hecs]
      exact hmarked

/-- The derived index and the file changes answer the same page. -/
theorem Derived.page_eq_scan {db : RepoTables Id} {history : List (HistoryRow Id)}
    (h : Derived db history) (hwf : TablesWf db) (path : Path) (after : Option (ℕ × Id))
    (limit : ℕ) :
    pathHistoryPage db history path after limit = pathHistoryScan db path after limit := by
  rw [pathHistoryScan_eq hwf]
  simp only [pathHistoryPage]
  generalize hrows : (history.filter fun e => decide (e.path = path) && behind after e.gen e.cs &&
    !changesetMarked db e.cs) = rows
  have hsound : ∀ e ∈ rows.filterMap fun e => (changesetGet db e.cs).map (e, ·),
      (e.1.gen, e.1.cs) = (e.2.generation, e.2.id) := by
    intro e he
    obtain ⟨e', he', hjoin⟩ := List.mem_filterMap.mp he
    obtain ⟨row, hget, rfl⟩ := Option.map_eq_some_iff.mp hjoin
    have hmem : e' ∈ history := (List.mem_filter.mp (hrows ▸ he')).1
    exact Prod.ext (h.sound e' hmem row hget).1 (changesetGet_some hget).2.symm
  have hsnd : (rows.filterMap fun e => (changesetGet db e.cs).map (e, ·)).map Prod.snd =
      rows.filterMap fun e => changesetGet db e.cs := by
    rw [List.map_filterMap]
    refine List.filterMap_congr fun e _ => ?_
    cases changesetGet db e.cs <;> rfl
  have hlisted := h.listed hwf path after
  rw [hrows] at hlisted
  have hkeys : ((db.changesets.filter fun row =>
      row.changes.any (fun c => decide (c.path = path)) && !changesetMarked db row.id).map
        fun row => (row.generation, row.id)).Nodup :=
    hwf.columns.sublist (List.filter_sublist.map _)
  have hsorted : newestFirst (fun row : ChangesetRow Id => (row.generation, row.id))
      (rows.filterMap fun e => changesetGet db e.cs) =
      (touching db path).filter fun row => behind after row.generation row.id := by
    rw [touching, ← newestFirst_filter hkeys]
    refine newestFirst_unique ?_ ((newestFirst_perm _ _).trans hlisted.symm)
      (newestFirst_pairwise _ _)
    exact (hlisted.map _).nodup_iff.mpr (hkeys.sublist (List.filter_sublist.map _))
  rw [← List.map_take, ← hsorted, ← hsnd, ← newestFirst_map hsound, ← List.map_take, List.map_map]
  rfl

theorem pathHistoryInsert_subset (history : List (HistoryRow Id)) (row : HistoryRow Id) :
    history ⊆ pathHistoryInsert history row := by
  rw [pathHistoryInsert]
  split_ifs
  · exact fun _ h => h
  · exact List.subset_append_left _ _

/-- After the insert the key is in the index. -/
theorem pathHistoryInsert_key (history : List (HistoryRow Id)) (row : HistoryRow Id) :
    ∃ h ∈ pathHistoryInsert history row, h.path = row.path ∧ h.cs = row.cs := by
  rw [pathHistoryInsert]
  split_ifs with hthere
  · obtain ⟨h, hmem, heq⟩ := List.any_eq_true.mp hthere
    have hkey := of_decide_eq_true heq
    exact ⟨h, hmem, hkey.1, hkey.2.2⟩
  · exact ⟨row, List.mem_append_right _ (List.mem_singleton.mpr rfl), rfl, rfl⟩

theorem Indexed.insert {db : RepoTables Id} {history : List (HistoryRow Id)} (h : Indexed db history)
    {id : Id} {row : ChangesetRow Id} (hget : changesetGet db id = some row) {c : FileChange Id}
    (hc : c ∈ row.changes) :
    Indexed db (pathHistoryInsert history ⟨c.path, row.generation, id, c.op⟩) := by
  rw [pathHistoryInsert]
  split_ifs with hthere
  · exact h
  · refine ⟨?_, fun e he row' hget' => ?_⟩
    · rw [List.map_append, List.map_singleton]
      refine h.keys.append (List.nodup_singleton _) ?_
      rw [List.disjoint_singleton]
      intro hmem
      obtain ⟨e, he, heq⟩ := List.mem_map.mp hmem
      rw [Prod.mk.injEq, Prod.mk.injEq] at heq
      exact hthere (List.any_eq_true.mpr ⟨e, he, decide_eq_true heq⟩)
    · rcases List.mem_append.mp he with hold | hnew
      · exact h.sound e hold row' hget'
      · rw [List.mem_singleton.mp hnew] at hget' ⊢
        rw [hget] at hget'
        cases hget'
        exact ⟨rfl, List.any_eq_true.mpr ⟨c, hc, decide_eq_true rfl⟩⟩

/-- Deriving a changeset keeps what the index holds and adds its changes. -/
theorem Indexed.put {db : RepoTables Id} {id : Id} {row : ChangesetRow Id}
    (hget : changesetGet db id = some row) (changes : List (FileChange Id))
    (hchanges : changes ⊆ row.changes) {history : List (HistoryRow Id)} (h : Indexed db history) :
    Indexed db (pathHistoryPut history row.generation id changes) ∧
      history ⊆ pathHistoryPut history row.generation id changes ∧
      ∀ c ∈ changes, ∃ e ∈ pathHistoryPut history row.generation id changes,
        e.path = c.path ∧ e.cs = id := by
  induction changes generalizing history with
  | nil => exact ⟨h, fun _ hold => hold, fun c hc => absurd hc List.not_mem_nil⟩
  | cons c changes ih =>
      have hinsert := h.insert hget (hchanges List.mem_cons_self)
      have hkept := pathHistoryInsert_subset history ⟨c.path, row.generation, id, c.op⟩
      obtain ⟨hput, hkept', hnamed⟩ :=
        ih (fun d hd => hchanges (List.mem_cons_of_mem _ hd)) hinsert
      refine ⟨hput, fun e he => hkept' (hkept he), fun d hd => ?_⟩
      rcases List.mem_cons.mp hd with rfl | hd
      · obtain ⟨e, he, heq⟩ :=
          pathHistoryInsert_key history ⟨d.path, row.generation, id, d.op⟩
        exact ⟨e, hkept' he, heq⟩
      · exact hnamed d hd

/-- Deriving ids in turn, stored or not. -/
theorem Indexed.derive {db : RepoTables Id} (hwf : TablesWf db) (ids : List Id)
    {history : List (HistoryRow Id)} (h : Indexed db history) :
    Indexed db (ids.foldl (derivePathHistory db) history) ∧
      history ⊆ ids.foldl (derivePathHistory db) history ∧
      ∀ row ∈ db.changesets, row.id ∈ ids → ∀ c ∈ row.changes,
        ∃ e ∈ ids.foldl (derivePathHistory db) history, e.path = c.path ∧ e.cs = row.id := by
  induction ids generalizing history with
  | nil => exact ⟨h, fun _ hold => hold, fun _ _ hid => absurd hid List.not_mem_nil⟩
  | cons id ids ih =>
      have hone : Indexed db (derivePathHistory db history id) ∧
          history ⊆ derivePathHistory db history id ∧
          ∀ row ∈ db.changesets, row.id = id → ∀ c ∈ row.changes,
            ∃ e ∈ derivePathHistory db history id, e.path = c.path ∧ e.cs = id := by
        cases hget : changesetGet db id with
        | none =>
            have hsame : derivePathHistory db history id = history := by
              simp only [derivePathHistory, hget]
            rw [hsame]
            refine ⟨h, fun _ hold => hold, fun row hrow hid => ?_⟩
            rw [← hid, hwf.get hrow] at hget
            cases hget
        | some row =>
            have hput : derivePathHistory db history id =
                pathHistoryPut history row.generation id row.changes := by
              simp only [derivePathHistory, fileChangesList, hget, Option.map_some,
                Option.getD_some]
            rw [hput]
            obtain ⟨hindexed, hkept, hnamed⟩ := h.put hget row.changes fun _ hc => hc
            refine ⟨hindexed, hkept, fun row' hrow' hid => ?_⟩
            rw [← hid, hwf.get hrow'] at hget
            cases hget
            exact hnamed
      obtain ⟨hindexed, hkept, hnamed⟩ := hone
      obtain ⟨hindexed', hkept', hnamed'⟩ := ih hindexed
      rw [List.foldl_cons]
      refine ⟨hindexed', fun e he => hkept' (hkept he), fun row hrow hid c hc => ?_⟩
      rcases List.mem_cons.mp hid with hid | hid
      · obtain ⟨e, he, hpath, hcs⟩ := hnamed row hrow hid c hc
        exact ⟨e, hkept' he, hpath, hcs.trans hid.symm⟩
      · exact hnamed' row hrow hid c hc

/-- An index that every changeset was derived into, in any order and however
often, is the index of the file changes. -/
theorem derived_of_all {db : RepoTables Id} (hwf : TablesWf db) {ids : List Id}
    (hall : ∀ row ∈ db.changesets, row.id ∈ ids) :
    Derived db (ids.foldl (derivePathHistory db) []) := by
  have hempty : Indexed db [] := ⟨List.nodup_nil, fun h hmem => absurd hmem List.not_mem_nil⟩
  obtain ⟨hindexed, -, hnamed⟩ := hempty.derive hwf ids
  exact ⟨hindexed, fun row hrow => hnamed row hrow (hall row hrow)⟩

/-! ### The pages -/

/-- A path's log as a server of pages. -/
def pathPages (cx : RepoCx Id) (index : PathIndex Id) (path : Path) (limit : Option ℤ)
    (cursor : Option Id) : Option (Lib.Page (LogEntry Id) Id) :=
  match pathLog cx index path limit cursor with
  | .ok r => some r.page
  | .error _ => none

/-- The index is not asked, or it is there, complete and past its queue. -/
def PathIndex.Serves (index : PathIndex Id) (cx : RepoCx Id) : Prop :=
  ∀ kind, index.kind = some kind → index.backfillDone = true ∧
    deriveRepoPending index.rows kind cx.id = false ∧ Derived cx.db index.history

/-- What a path's log has left at a cursor. -/
def PathServes (db : RepoTables Id) (path : Path) (cursor : Option Id)
    (xs : List (LogEntry Id)) : Prop :=
  ∃ after, cursorRow db cursor = .ok after ∧
    xs = ((touching db path).filter fun row => behind after row.generation row.id).map
      ChangesetRow.logEntry

/-- Behind a row that lies behind the cursor is behind the cursor. -/
theorem behind_trans {after : Option (ℕ × Id)} {a b : ℕ × Id} (ha : behind after a.1 a.2 = true)
    (hb : behind (some a) b.1 b.2 = true) : behind after b.1 b.2 = true := by
  cases after with
  | none => rfl
  | some c =>
      obtain ⟨hca, hne⟩ := behind_iff.mp ha
      obtain ⟨hab, -⟩ := behind_iff.mp hb
      refine behind_iff.mpr ⟨newerFirst_trans hca hab, fun heq => hne ?_⟩
      exact newerFirst_antisymm hca (heq ▸ hab)

theorem behind_asymm (a b : ℕ × Id) (h : behind (some a) b.1 b.2 = true) :
    behind (some b) a.1 a.2 = false := by
  by_contra hne
  rw [Bool.not_eq_false] at hne
  obtain ⟨hab, hdistinct⟩ := behind_iff.mp h
  exact hdistinct (newerFirst_antisymm hab (behind_iff.mp hne).1)

theorem path_paged {cx : RepoCx Id} (hwf : TablesWf cx.db) {index : PathIndex Id}
    (hindex : index.Serves cx) (path : Path) {limit : Option ℤ} {n : ℕ}
    (hlimit : parseLimit limit = (.ok n : Except (ApiError Id) ℕ)) :
    Lib.Paged (pathPages cx index path limit) LogEntry.id n (PathServes cx.db path) where
  answer := by
    rintro cursor xs ⟨after, hafter, rfl⟩
    rw [pathPages, pathLog, hlimit]
    simp only [hafter]
    cases hkind : index.kind with
    | none =>
        show some (logResponse n (pathHistoryScan cx.db path after (n + 1)) []).page = _
        rw [pathHistoryScan_eq hwf, logResponse_front]
    | some kind =>
        obtain ⟨hdone, hpending, hderived⟩ := hindex kind hkind
        simp only [hdone, hpending, Bool.not_true, Bool.or_false, Bool.false_eq_true, if_false]
        rw [hderived.page_eq_scan hwf, pathHistoryScan_eq hwf, logResponse_front]
  resume := by
    rintro cursor xs y ys ⟨after, -, hsplit⟩
    obtain ⟨front, back, hfilter, -, hback⟩ := List.map_eq_append_iff.mp hsplit.symm
    obtain ⟨row, back, rfl, rfl, rfl⟩ := List.map_eq_cons_iff.mp hback
    have hrow : row ∈ (touching cx.db path).filter fun row =>
        behind after row.generation row.id := hfilter ▸ List.mem_append_right _ List.mem_cons_self
    obtain ⟨htouching, hbehind⟩ := List.mem_filter.mp hrow
    have hmem : row ∈ cx.db.changesets :=
      (List.mem_filter.mp ((newestFirst_perm _ _).subset htouching)).1
    refine ⟨some (row.generation, row.id), ?_, ?_⟩
    · show cursorRow cx.db (some row.id) = _
      simp only [cursorRow, hwf.get hmem]
    · -- what lies behind the row lies behind the cursor too
      have hinside : ((touching cx.db path).filter fun row => behind after row.generation row.id).filter
          (fun b => behind (some (row.generation, row.id)) b.generation b.id) =
          (touching cx.db path).filter fun b =>
            behind (some (row.generation, row.id)) b.generation b.id := by
        rw [List.filter_filter]
        refine List.filter_congr fun b _ => ?_
        cases hb : behind (some (row.generation, row.id)) b.generation b.id with
        | false => rfl
        | true =>
            rw [Bool.true_and]
            exact behind_trans (a := (row.generation, row.id)) (b := (b.generation, b.id))
              hbehind hb
      have hordered := (touching_ordered hwf path).sublist
        (List.filter_sublist (p := fun row => behind after row.generation row.id))
      rw [hfilter] at hordered
      rw [← hinside, hfilter]
      exact congrArg _ (Lib.filter_behind _
        (fun a b => behind_asymm (a.generation, a.id) (b.generation, b.id)) hordered).symm

/-- The starts a plain log takes: an id that is stored and not tombstoned, else
the target of main. -/
def LogFrom (db : RepoTables Id) (start first : Option Id) : Prop :=
  match start with
  | some id => (changesetGet db id).isSome ∧ redactionActive db id = false ∧ first = some id
  | none => first = (refGet db "main").bind (·.target)

theorem LogFrom.start_ok {cx : RepoCx Id} {start first : Option Id} (h : LogFrom cx.db start first)
    (limit : Option ℤ) : logStart cx ⟨start, limit, none, none⟩ = .ok first := by
  cases start with
  | none => rw [logStart, h]
  | some id =>
      obtain ⟨hstored, hred, rfl⟩ := h
      obtain ⟨row, hrow⟩ := Option.isSome_iff_exists.mp hstored
      simp [logStart, hrow, hred]

/-- The limits the server takes. -/
def LimitOk (limit : Option ℤ) : Prop := ∀ n, limit = some n → 1 ≤ n ∧ n ≤ 200

omit [Platform Id] in
theorem LimitOk.parse {limit : Option ℤ} (h : LimitOk limit) :
    ∃ n, 1 ≤ n ∧ parseLimit limit = (.ok n : Except (ApiError Id) ℕ) := by
  cases limit with
  | none => exact ⟨50, by omega, rfl⟩
  | some n =>
      obtain ⟨hlow, hhigh⟩ := h n rfl
      refine ⟨n.toNat, by omega, ?_⟩
      show (if n < 1 then _ else if 200 < n then _ else _) = _
      rw [if_neg (by omega), if_neg (by omega)]

namespace Server

/-- Paging through a log loses and repeats nothing, in every reachable state.
The plain log is the first-parent chain of its start without the tombstoned
changesets; a path's log is the unmarked changesets that touch it, newest
first, whether the scan answers it or an index every changeset was derived
into. -/
theorem log_pages_of_reach {ok : Server Id → Event Id → Prop} {s : Server Id} (h : Reach ok s)
    (r : RepoId) {limit : Option ℤ} (hlimit : LimitOk limit) :
    (∀ start first, LogFrom (s.dbs r) start first →
      ∃ chain, FirstParents (s.dbs r) first chain ∧ (chain.map (·.id)).Nodup ∧
        ∀ fuel, (s.dbs r).changesets.length < fuel → ∀ ys,
          Lib.Follow (logPages (s.cx r) fuel start limit) none ys ↔ ys = visible (s.dbs r) chain) ∧
    (∀ path,
      (touching (s.dbs r) path).Pairwise (fun a b =>
        behind (some (a.generation, a.id)) b.generation b.id = true) ∧
      ∀ index : PathIndex Id, index.Serves (s.cx r) → ∀ ys,
        Lib.Follow (pathPages (s.cx r) index path limit) none ys ↔
          ys = (touching (s.dbs r) path).map ChangesetRow.logEntry) ∧
    (∀ ids : List Id, (∀ row ∈ (s.dbs r).changesets, row.id ∈ ids) →
      Derived (s.dbs r) (ids.foldl (derivePathHistory (s.dbs r)) [])) ∧
    ∀ history : List (HistoryRow Id), Derived (s.dbs r) history → ∀ path after n,
      pathHistoryPage (s.dbs r) history path after n = pathHistoryScan (s.dbs r) path after n := by
  have hwf := tablesWf_of_reach h r
  obtain ⟨rank, hrank⟩ := ranked_of_reach h r
  obtain ⟨n, hpos, hparse⟩ : ∃ n, 1 ≤ n ∧ parseLimit limit = (.ok n : Except (ApiError Id) ℕ) :=
    hlimit.parse
  refine ⟨fun start first hfrom => ?_, fun path => ⟨touching_ordered hwf path, ?_⟩,
    fun ids hall => derived_of_all hwf hall, fun history hderived path after n => ?_⟩
  · obtain ⟨chain, hchain⟩ := FirstParents.exists hrank first
    refine ⟨chain, hchain, hchain.nodup hrank, fun fuel hfuel ys => ?_⟩
    have hpaged : Lib.Paged (logPages (s.cx r) fuel start limit) LogEntry.id n
        (LogServes (s.cx r) start limit) :=
      @log_paged Id _ (s.cx r) rank hrank fuel hfuel start limit n hparse
    exact hpaged.follow_iff hpos ⟨first, chain, hfrom.start_ok limit, hchain, rfl⟩
  · intro index hindex ys
    have hpaged : Lib.Paged (pathPages (s.cx r) index path limit) LogEntry.id n
        (PathServes (s.dbs r) path) := path_paged hwf hindex path hparse
    have hall : (touching (s.dbs r) path).filter (fun row => behind none row.generation row.id) =
        touching (s.dbs r) path := List.filter_eq_self.mpr fun _ _ => rfl
    exact hpaged.follow_iff hpos ⟨none, rfl, by rw [hall]⟩
  · exact hderived.page_eq_scan hwf path after n

end Server

end

/-! ### Two commits -/

namespace Server.TwoCommits

def start : Server PlainId := boot .dbPerRepo [(1, "r")] 100 10

/-- Two imported commits of one file. -/
def imported : List (Event PlainId) :=
  [.importGit 1
    [⟨1, [], "ann", "first", 5, .entry "a" (.blob .regular 11 [97, 10]) .empty⟩,
      ⟨2, [1], "ann", "second", 6, .entry "a" (.blob .regular 12 [98, 10]) .empty⟩]
    ⟨false, false⟩ 2 2]

/-- The target of main. -/
def tip : PlainId :=
  ((Lib.exec step start imported).bind fun s =>
    (refGet (s.dbs 1) "main").bind (·.target)).getD []

def marked : List (Event PlainId) := imported ++ [.mark 1 tip .changeset]

end Server.TwoCommits

namespace Server

open TwoCommits in
/-- Both logs after the import, a page an entry. -/
theorem log_pages_of_reach_imported : ∃ s, Lib.exec step start imported = some s ∧
    (∃ chain, FirstParents (s.dbs 1) ((refGet (s.dbs 1) "main").bind (·.target)) chain ∧
      Lib.Follow (logPages (s.cx 1) 3 none (some 1)) none (visible (s.dbs 1) chain)) ∧
    (touching (s.dbs 1) ⟨[], "a"⟩).length = 2 ∧
    Lib.Follow (pathPages (s.cx 1) ⟨none, false, [], []⟩ ⟨[], "a"⟩ (some 1)) none
      ((touching (s.dbs 1) ⟨[], "a"⟩).map ChangesetRow.logEntry) := by
  have hrun : (Lib.exec step start imported).any (fun s =>
      decide ((s.dbs 1).changesets.length < 3) &&
        decide ((touching (s.dbs 1) ⟨[], "a"⟩).length = 2)) = true := by
    decide +kernel
  obtain ⟨s, hs, hlen⟩ := (Option.any_eq_true _ _).mp hrun
  rw [Bool.and_eq_true, decide_eq_true_iff, decide_eq_true_iff] at hlen
  have hreach : Reach (fun _ _ => True) s :=
    Lib.Reach.exec (.start ⟨.dbPerRepo, [(1, "r")], 100, 10, by decide, rfl⟩)
      (fun _ _ _ => trivial) hs
  have hlimit : LimitOk (some 1) := fun n hn => by
    cases hn
    decide
  obtain ⟨hplain, hpath, -⟩ := log_pages_of_reach hreach 1 hlimit
  obtain ⟨chain, hchain, -, hfollow⟩ := hplain none _ rfl
  refine ⟨s, hs, ⟨chain, hchain, (hfollow 3 hlen.1 _).mpr rfl⟩, hlen.2, ?_⟩
  exact ((hpath ⟨[], "a"⟩).2 ⟨none, false, [], []⟩ (fun kind hkind => nomatch hkind) _).mpr rfl

open TwoCommits in
/-- Once its head is tombstoned the log from that head has no page, though its
parent is there to be listed. -/
theorem log_from_marked : ∃ s chain, Lib.exec step start marked = some s ∧
    FirstParents (s.dbs 1) (some tip) chain ∧ visible (s.dbs 1) chain ≠ [] ∧
    ∀ fuel ys, ¬ Lib.Follow (logPages (s.cx 1) fuel (some tip) (some 1)) none ys := by
  have hrun : (Lib.exec step start marked).any (fun s =>
      redactionActive (s.dbs 1) tip && (changesetGet (s.dbs 1) tip).any fun row =>
        row.parents.head?.any fun p => (changesetGet (s.dbs 1) p).any fun parent =>
          decide (parent.parents = []) && !redactionActive (s.dbs 1) parent.id) = true := by
    decide +kernel
  obtain ⟨s, hs, hfacts⟩ := (Option.any_eq_true _ _).mp hrun
  obtain ⟨hred, hrest⟩ := Bool.and_eq_true_iff.mp hfacts
  obtain ⟨row, hrow, hrest⟩ := (Option.any_eq_true _ _).mp hrest
  obtain ⟨p, hp, hrest⟩ := (Option.any_eq_true _ _).mp hrest
  obtain ⟨parent, hparent, hrest⟩ := (Option.any_eq_true _ _).mp hrest
  obtain ⟨hroot, hunmarked⟩ := Bool.and_eq_true_iff.mp hrest
  have hend : FirstParents (s.dbs 1) parent.parents.head? [] := by
    rw [of_decide_eq_true hroot]
    exact .none
  have hchain : FirstParents (s.dbs 1) (some tip) [row, parent] :=
    .row hrow (hp ▸ .row hparent hend)
  refine ⟨s, [row, parent], hs, hchain, ?_, fun fuel ys hfollow => ?_⟩
  · have hmem : parent.logEntry ∈ visible (s.dbs 1) [row, parent] :=
      List.mem_map_of_mem (List.mem_filter.mpr ⟨by simp, hunmarked⟩)
    exact List.ne_nil_of_mem hmem
  · have hnone : logPages (s.cx 1) fuel (some tip) (some 1) none = none := by
      have hrefused : logStart (s.cx 1) ⟨some tip, some 1, none, none⟩ =
          .error (.new .objectRedacted
            ("changeset " ++ Platform.toHex tip ++ " is redacted in " ++ (s.cx 1).name)) := by
        show (if (changesetGet (s.dbs 1) tip).isNone then _
          else if redactionActive (s.dbs 1) tip then _ else _) = _
        rw [hrow, hred]
        rfl
      rw [logPages, log, hrefused]
      rfl
    cases hfollow with
    | last hpage =>
        rw [hnone] at hpage
        cases hpage
    | more hpage =>
        rw [hnone] at hpage
        cases hpage

end Server

end Naatre
