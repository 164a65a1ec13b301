import Mathlib.Data.List.Infix
import Naatre.Server.DeriveProgress

/-!
The boot backfill of one kind (`backfill`, `derive_backfill_batch`) beside the
queue and the creates. The cursor leaves no changeset without a row behind it.

`backfill` promises that the queue sees parents rowed before children. A create
on top of a changeset the cursor has not come to breaks that order.
-/

namespace Naatre

section

variable {Id : Type} [DecidableEq Id]

/-! ### Keys in rowid order -/

/-- The keys of the rows, oldest first. -/
def rowKeys (rows : List (DeriveRow Id)) : List (DeriveKey Id) := rows.map (·.key)

omit [DecidableEq Id] in
theorem rowKeys_map {rows : List (DeriveRow Id)} {g : DeriveRow Id → DeriveRow Id}
    (hg : ∀ row, (g row).key = row.key) : rowKeys (rows.map g) = rowKeys rows := by
  rw [rowKeys, List.map_map]
  exact List.map_congr_left fun row _ => hg row

omit [DecidableEq Id] in
theorem rowKeys_append (rows : List (DeriveRow Id)) (row : DeriveRow Id) :
    rowKeys rows <+: rowKeys (rows ++ [row]) := by
  rw [rowKeys, rowKeys, List.map_append]
  exact List.prefix_append _ _

theorem mem_rowKeys {rows : List (DeriveRow Id)} {key : DeriveKey Id} :
    key ∈ rowKeys rows ↔ (deriveGet rows key).isSome := by
  rw [rowKeys, List.mem_map, deriveGet, List.find?_isSome]
  simp only [decide_eq_true_eq]

theorem rowKeys_update (rows : List (DeriveRow Id)) (key : DeriveKey Id)
    (guard : DeriveRow Id → Bool) (set : DeriveRow Id → DeriveRow Id) :
    rowKeys (deriveUpdate rows key guard set).1 = rowKeys rows := by
  refine rowKeys_map fun row => ?_
  split_ifs with hrow
  · exact hrow.1.symm
  · rfl

theorem rowKeys_insertIgnore (rows : List (DeriveRow Id)) (row : DeriveRow Id) :
    rowKeys rows <+: rowKeys (deriveInsertIgnore rows row) := by
  unfold deriveInsertIgnore
  split_ifs
  · exact List.prefix_refl _
  · exact rowKeys_append rows row

theorem rowKeys_upsert (rows : List (DeriveRow Id)) (row : DeriveRow Id)
    (set : DeriveRow Id → DeriveRow Id) : rowKeys rows <+: rowKeys (deriveUpsert rows row set) := by
  unfold deriveUpsert
  split_ifs
  · exact (rowKeys_update rows row.key _ set).symm ▸ List.prefix_refl _
  · exact rowKeys_append rows row

theorem rowKeys_failAttempt (t : DeriveTables Id) (key : DeriveKey Id) (reason : String)
    (nowNs : ℕ) : rowKeys t.rows <+: rowKeys (deriveFailAttempt t key reason nowNs).1.rows := by
  unfold deriveFailAttempt
  split_ifs
  · simp only
    split_ifs
    · exact rowKeys_upsert _ _ _
    · exact rowKeys_upsert _ _ _
  · exact List.prefix_refl _

theorem rowKeys_recordOutcome (t : DeriveTables Id) (key : DeriveKey Id) (outcome : DeriveOutcome)
    (taint : Bool × Option Id) (nowNs : ℕ) :
    rowKeys t.rows <+: rowKeys (recordOutcome t key outcome taint nowNs).rows := by
  unfold recordOutcome
  cases outcome with
  | ok output =>
      simp only
      split_ifs
      · exact rowKeys_upsert _ _ _
      · unfold deriveRecordDone
        split_ifs
        · exact (rowKeys_update t.rows key _ _).symm ▸ List.prefix_refl _
        · exact List.prefix_refl _
  | walkBudget budget => exact rowKeys_upsert _ _ _
  | walkDeadline reason =>
      simp only
      split_ifs
      · exact rowKeys_failAttempt t key reason nowNs
      · exact rowKeys_failAttempt t key reason nowNs
  | fail reason => exact rowKeys_failAttempt t key reason nowNs

theorem rowKeys_enqueueKind {t t' : DeriveTables Id} {node : QueueNode Id} {nowNs : ℕ}
    {kind : ℕ × Option DeriveOutcome} (h : enqueueKind t node nowNs kind = some t') :
    rowKeys t.rows <+: rowKeys t'.rows := by
  unfold enqueueKind at h
  obtain ⟨kind, eager⟩ := kind
  cases eager with
  | none => cases h; exact rowKeys_insertIgnore _ _
  | some outcome =>
      cases outcome with
      | ok output =>
          simp only at h
          split_ifs at h
          · cases h; exact rowKeys_upsert _ _ _
          · obtain ⟨rows, hrows, rfl⟩ := Option.map_eq_some_iff.mp h
            unfold deriveStateInsertDone at hrows
            split_ifs at hrows
            cases hrows
            exact rowKeys_append _ _
      | walkBudget budget => cases h; exact rowKeys_recordOutcome _ _ _ _ _
      | walkDeadline reason => cases h; exact rowKeys_recordOutcome _ _ _ _ _
      | fail reason => cases h; exact rowKeys_recordOutcome _ _ _ _ _

theorem rowKeys_enqueue {node : QueueNode Id} {nowNs : ℕ} {kinds : List (ℕ × Option DeriveOutcome)}
    {t t' : DeriveTables Id}
    (h : kinds.foldlM (fun t kind => enqueueKind t node nowNs kind) t = some t') :
    rowKeys t.rows <+: rowKeys t'.rows := by
  induction kinds generalizing t with
  | nil => cases h; exact List.prefix_refl _
  | cons kind kinds ih =>
      rw [List.foldlM_cons] at h
      obtain ⟨mid, hmid, hrest⟩ := Option.bind_eq_some_iff.mp h
      exact (rowKeys_enqueueKind hmid).trans (ih hrest)

theorem rowKeys_sweep (keys : List (DeriveKey Id)) (reason : String) (nowNs : ℕ)
    (t : DeriveTables Id) : rowKeys t.rows <+:
      rowKeys (keys.foldl (fun t key => (deriveFailAttempt t key reason nowNs).1) t).rows := by
  induction keys generalizing t with
  | nil => exact List.prefix_refl _
  | cons key keys ih => exact (rowKeys_failAttempt t key reason nowNs).trans (ih _)

theorem rowKeys_backfill (kind : ℕ) (scan : List (QueueNode Id × ℕ)) (rows : List (DeriveRow Id)) :
    rowKeys rows <+: rowKeys (scan.foldl
      (fun rows e => deriveInsertIgnore rows (blankRow ⟨kind, e.1.repoId, e.1.id⟩)) rows) := by
  induction scan generalizing rows with
  | nil => exact List.prefix_refl _
  | cons e scan ih => exact (rowKeys_insertIgnore _ _).trans (ih _)

/-- Rows are appended and never move. -/
theorem DeriveQueue.step_rowKeys {q q' : DeriveQueue Id} {e : QueueEvent Id}
    (h : q.step e = some q') : rowKeys q.tables.rows <+: rowKeys q'.tables.rows := by
  have hupdate : ∀ (key : DeriveKey Id) guard set,
      rowKeys q.tables.rows <+: rowKeys (deriveUpdate q.tables.rows key guard set).1 :=
    fun key guard set => (rowKeys_update q.tables.rows key guard set).symm ▸ List.prefix_refl _
  cases e with
  | create node kinds =>
      rw [step] at h
      split_ifs at h
      obtain ⟨t, ht, rfl⟩ := Option.map_eq_some_iff.mp h
      have hkeys := rowKeys_enqueue (t := { q.tables with nodes := q.tables.nodes ++ [node] }) ht
      exact hkeys
  | backfill kind cursor limit => cases h; exact rowKeys_backfill _ _ _
  | mark repoId cs =>
      cases h
      refine (rowKeys_map fun row => ?_).symm ▸ List.prefix_refl _
      split_ifs <;> rfl
  | sweep kind => cases h; exact rowKeys_sweep _ _ _ _
  | lease i =>
      cases step_worker rfl h with
      | leased => exact hupdate _ _ _
      | stale => exact List.prefix_refl _
  | record i =>
      cases step_worker rfl h with
      | recorded => exact rowKeys_recordOutcome _ _ _ _ _
  | release i =>
      cases step_worker rfl h with
      | released => exact hupdate _ _ _
  | derive i outcome => cases step_worker rfl h; exact List.prefix_refl _
  | busy i => cases step_worker rfl h; exact List.prefix_refl _
  | pick repoId kind =>
      obtain ⟨next, -, rfl⟩ := Option.map_eq_some_iff.mp h
      exact List.prefix_refl _
  | tick ns => cases h; exact List.prefix_refl _
  | drop i => cases h; exact List.prefix_refl _
  | crash => cases h; exact List.prefix_refl _

/-- The changeset of a row that a step brings. -/
theorem DeriveQueue.step_adds {q q' : DeriveQueue Id} {e : QueueEvent Id} (hwf : TablesWf q)
    (h : q.step e = some q') {key : DeriveKey Id} (hnone : deriveGet q.tables.rows key = none)
    (hsome : (deriveGet q'.tables.rows key).isSome) :
    (∃ node kinds, e = .create node kinds ∧ key.kind ∈ kinds.map Prod.fst ∧
      key.repoId = node.repoId ∧ key.cs = node.id) ∨
      ∃ kind cursor limit, e = .backfill kind cursor limit := by
  -- a statement that only changes rows that are there
  have habsurd : ∀ {rows : List (DeriveRow Id)}, (deriveGet rows key).isSome →
      deriveGet rows key = none → False := fun hget hgone => by simp [hgone] at hget
  have hupdate : ∀ k guard set, deriveGet (deriveUpdate q.tables.rows k guard set).1 key = none := by
    intro k guard set
    rw [deriveGet_update, hnone]
    simp
  cases e with
  | create node kinds =>
      rw [step] at h
      split_ifs at h with hguard
      obtain ⟨t, ht, rfl⟩ := Option.map_eq_some_iff.mp h
      push Not at hguard
      obtain ⟨-, -, hadd⟩ := enqueue_fresh ht hguard.2 hwf.wf.keys
        (hwf.wf.create_none hguard.1 kinds)
      rcases hadd key with heq | ⟨hnew, -⟩
      · exact (habsurd hsome (heq.trans hnone)).elim
      · exact .inl ⟨node, kinds, rfl, hnew⟩
  | backfill kind cursor limit => exact .inr ⟨kind, cursor, limit, rfl⟩
  | mark repoId cs =>
      cases h
      refine (habsurd hsome ?_).elim
      rw [deriveGet_invalidate, hnone, Option.map_none]
  | sweep kind =>
      cases h
      have hnodup : (deriveExpiredLeases q.tables.rows kind q.nowNs).Nodup :=
        hwf.wf.keys.sublist (List.filter_sublist.map _)
      refine (habsurd hsome ?_).elim
      rcases (sweep_get "lease expired" q.nowNs hnodup q.tables key).2 with heq | ⟨hmem, -⟩
      · exact heq.trans hnone
      · obtain ⟨old, hmem', rfl⟩ := List.mem_map.mp hmem
        have hold : deriveGet q.tables.rows old.key = some old :=
          Lib.find_of_nodup hwf.wf.keys (List.mem_filter.mp hmem').1
        rw [hold] at hnone
        cases hnone
  | record i =>
      cases step_worker rfl h with
      | recorded i k expires outcome taint hderived =>
          rcases recordOutcome_get q.tables k outcome taint q.nowNs key with heq | ⟨rfl, -⟩
          · exact (habsurd hsome (heq.trans hnone)).elim
          · obtain ⟨old, hold⟩ := hwf.rowed key expires
              (mem_held.mpr ⟨_, List.mem_of_getElem? hderived, rfl, rfl⟩)
            rw [hold] at hnone
            cases hnone
  | lease i =>
      cases step_worker rfl h with
      | leased => exact (habsurd hsome (hupdate _ _ _)).elim
      | stale => exact (habsurd hsome hnone).elim
  | release i =>
      cases step_worker rfl h with
      | released => exact (habsurd hsome (hupdate _ _ _)).elim
  | derive i outcome => cases step_worker rfl h; exact (habsurd hsome hnone).elim
  | busy i => cases step_worker rfl h; exact (habsurd hsome hnone).elim
  | pick repoId kind =>
      obtain ⟨next, -, rfl⟩ := Option.map_eq_some_iff.mp h
      exact (habsurd hsome hnone).elim
  | tick ns => cases h; exact (habsurd hsome hnone).elim
  | drop i => cases h; exact (habsurd hsome hnone).elim
  | crash => cases h; exact (habsurd hsome hnone).elim

/-- A create queues its changeset under each kind. -/
theorem enqueueKind_rowed {t t' : DeriveTables Id} {node : QueueNode Id} {nowNs : ℕ}
    {kind : ℕ × Option DeriveOutcome} (h : enqueueKind t node nowNs kind = some t')
    (hexists : changesetExists t node.id = true) :
    (deriveGet t'.rows ⟨kind.1, node.repoId, node.id⟩).isSome := by
  unfold enqueueKind at h
  obtain ⟨kind, eager⟩ := kind
  cases eager with
  | none =>
      cases h
      simp only [deriveEnqueuePending]
      rw [deriveGet_insertIgnore, if_pos rfl]
      rfl
  | some outcome =>
      cases outcome with
      | ok output =>
          simp only at h
          split_ifs at h
          · cases h
            rw [deriveGet_poisonNow, if_pos rfl]
            rfl
          · obtain ⟨rows, hrows, rfl⟩ := Option.map_eq_some_iff.mp h
            unfold deriveStateInsertDone at hrows
            split_ifs at hrows
            cases hrows
            exact mem_rowKeys.mp (by simp [rowKeys])
      | walkBudget budget =>
          cases h
          rw [recordOutcome, deriveGet_poisonNow, if_pos rfl]
          rfl
      | walkDeadline reason =>
          cases h
          have hget := deriveGet_failAttempt t ⟨kind, node.repoId, node.id⟩ reason nowNs
            ⟨kind, node.repoId, node.id⟩
          rw [if_pos ⟨rfl, hexists⟩] at hget
          simp only [recordOutcome]
          split_ifs
          · rw [hget]
            rfl
          · rw [deriveReport, hget]
            rfl
      | fail reason =>
          cases h
          rw [recordOutcome, deriveGet_failAttempt, if_pos ⟨rfl, hexists⟩]
          rfl

theorem enqueue_rowed {node : QueueNode Id} {nowNs : ℕ} {kinds : List (ℕ × Option DeriveOutcome)}
    {t t' : DeriveTables Id}
    (h : kinds.foldlM (fun t kind => enqueueKind t node nowNs kind) t = some t')
    (hkinds : (kinds.map Prod.fst).Nodup) (hkeys : KeysDistinct t.rows)
    (hnone : ∀ kind ∈ kinds, deriveGet t.rows ⟨kind.1, node.repoId, node.id⟩ = none)
    (hexists : changesetExists t node.id = true) {kind : ℕ} (hkind : kind ∈ kinds.map Prod.fst) :
    (deriveGet t'.rows ⟨kind, node.repoId, node.id⟩).isSome := by
  obtain ⟨entry, hentry, rfl⟩ := List.mem_map.mp hkind
  obtain ⟨before, after, rfl⟩ := List.append_of_mem hentry
  rw [List.foldlM_append] at h
  obtain ⟨mid, hmid, hrest⟩ := Option.bind_eq_some_iff.mp h
  rw [List.foldlM_cons] at hrest
  obtain ⟨last, hlast, hrest⟩ := Option.bind_eq_some_iff.mp hrest
  rw [List.map_append] at hkinds
  obtain ⟨hnodes, -, -⟩ := enqueue_fresh hmid (List.nodup_append.mp hkinds).1 hkeys
    fun kind hmem => hnone kind (List.mem_append_left _ hmem)
  have hrowed := enqueueKind_rowed hlast (by rw [changesetExists, hnodes]; exact hexists)
  exact mem_rowKeys.mp ((rowKeys_enqueue hrest).subset (mem_rowKeys.mpr hrowed))

/-! ### Changesets -/

/-- Each changeset of a file is stored once. -/
def NodesDistinct (nodes : List (QueueNode Id)) : Prop :=
  (nodes.map fun n => (n.repoId, n.id)).Nodup

omit [DecidableEq Id] in
theorem NodesDistinct.eq {nodes : List (QueueNode Id)} (h : NodesDistinct nodes)
    {m n : QueueNode Id} (hm : m ∈ nodes) (hn : n ∈ nodes) (hrepo : m.repoId = n.repoId)
    (hid : m.id = n.id) : m = n :=
  List.inj_on_of_nodup_map h hm hn (by rw [hrepo, hid])

/-- A parent of a changeset is stored in a lower generation. -/
def StoredBelow (nodes : List (QueueNode Id)) (n : QueueNode Id) (p : Id) : Prop :=
  ∃ m ∈ nodes, m.repoId = n.repoId ∧ m.id = p ∧ m.generation < n.generation

instance (nodes : List (QueueNode Id)) (n : QueueNode Id) (p : Id) :
    Decidable (StoredBelow nodes n p) :=
  inferInstanceAs (Decidable (∃ m ∈ nodes, _))

omit [DecidableEq Id] in
theorem StoredBelow.append {nodes : List (QueueNode Id)} {n : QueueNode Id} {p : Id}
    (h : StoredBelow nodes n p) (new : List (QueueNode Id)) : StoredBelow (nodes ++ new) n p := by
  obtain ⟨m, hm, hrest⟩ := h
  exact ⟨m, List.mem_append_left _ hm, hrest⟩

/-- A parent of a changeset has its row already, or the backfill comes to it
first. -/
def Due (kind : ℕ) (t : DeriveTables Id) (n : QueueNode Id) (p : Id) : Prop :=
  (deriveGet t.rows ⟨kind, n.repoId, p⟩).isSome ∨ StoredBelow t.nodes n p

/-- Every parent of a stored changeset. -/
def ParentsDue (kind : ℕ) (t : DeriveTables Id) : Prop :=
  ∀ n ∈ t.nodes, ∀ p ∈ n.parents, Due kind t n p

/-- Rows and changesets that are appended leave a parent due. -/
theorem Due.append {kind : ℕ} {t t' : DeriveTables Id} {n : QueueNode Id} {p : Id}
    (h : Due kind t n p) (hkeys : rowKeys t.rows ⊆ rowKeys t'.rows) (new : List (QueueNode Id))
    (hnodes : t'.nodes = t.nodes ++ new) : Due kind t' n p := by
  rcases h with hrow | hbelow
  · exact .inl (mem_rowKeys.mp (hkeys (mem_rowKeys.mpr hrow)))
  · exact .inr (by rw [hnodes]; exact hbelow.append new)

/-! ### Parents first -/

/-- Every row of the kind stands behind the rows of its parents. -/
def ParentsFirst (kind : ℕ) (t : DeriveTables Id) : Prop :=
  ∀ pre key post, rowKeys t.rows = pre ++ key :: post → key.kind = kind →
    ∀ p ∈ queueParents t.nodes key.repoId key.cs, (⟨kind, key.repoId, p⟩ : DeriveKey Id) ∈ pre

/-- Rows that are appended, each behind the rows of its parents. -/
theorem ParentsFirst.append {kind : ℕ} {t t' : DeriveTables Id} (h : ParentsFirst kind t)
    {new : List (DeriveKey Id)} (hkeys : rowKeys t'.rows = rowKeys t.rows ++ new)
    (hold : ∀ key ∈ rowKeys t.rows,
      queueParents t'.nodes key.repoId key.cs = queueParents t.nodes key.repoId key.cs)
    (hnew : ∀ pre key post, new = pre ++ key :: post → key.kind = kind →
      ∀ p ∈ queueParents t'.nodes key.repoId key.cs,
        (⟨kind, key.repoId, p⟩ : DeriveKey Id) ∈ rowKeys t.rows ++ pre) :
    ParentsFirst kind t' := by
  intro pre key post hsplit hkind p hp
  rw [hkeys] at hsplit
  rcases List.append_eq_append_iff.mp hsplit with ⟨mid, rfl, htail⟩ | ⟨mid, hpre, htail⟩
  · exact hnew mid key post htail hkind p hp
  · cases mid with
    | nil =>
        rw [List.append_nil] at hpre
        have hmem := hnew [] key post htail.symm hkind p hp
        rwa [List.append_nil, hpre] at hmem
    | cons k mid =>
        rw [List.cons_append] at htail
        obtain ⟨rfl, -⟩ := List.cons.inj htail
        have hkey : key ∈ rowKeys t.rows := by rw [hpre]; simp
        rw [hold key hkey] at hp
        exact h pre key mid hpre hkind p hp

/-! ### The backfill of one kind -/

/-- `BackfillCursor::start`. -/
def BackfillCursor.start : BackfillCursor := ⟨-1, 0⟩

/-- A changeset and its rowid, behind the cursor in `(generation, rowid)`
order. -/
def BackfillCursor.Before (c : BackfillCursor) (e : QueueNode Id × ℕ) : Prop :=
  c.generation < e.1.generation ∨ c.generation = e.1.generation ∧ c.rowid < e.2

instance (c : BackfillCursor) (e : QueueNode Id × ℕ) : Decidable (c.Before e) :=
  inferInstanceAs (Decidable (_ ∨ _))

/-- `(generation, rowid)` order. -/
def scanBefore (a b : QueueNode Id × ℕ) : Prop :=
  a.1.generation < b.1.generation ∨ a.1.generation = b.1.generation ∧ a.2 ≤ b.2

instance : DecidableRel fun a b : QueueNode Id × ℕ => scanBefore a b := fun _ _ => inferInstanceAs (Decidable (_ ∨ _))

/-- The queue, and where the backfill of a kind stands while one runs. -/
structure Backfill (Id : Type) where
  queue : DeriveQueue Id
  cursor : Option BackfillCursor

inductive BackfillEvent (Id : Type)
  /-- the process boots and its backfill starts -/
  | boot
  | batch (limit : ℕ)
  /-- anything else the queue does -/
  | queue (e : QueueEvent Id)

namespace Backfill

/-- What the callers of the queue see to: a process that runs the backfill
queues every registered kind; nothing but the backfill runs the kind's
batches. -/
def Admits (kind : ℕ) (s : Backfill Id) : QueueEvent Id → Prop
  | .create _ kinds => s.cursor.isSome → kind ∈ kinds.map Prod.fst
  | .backfill k _ _ => k ≠ kind
  | _ => True

instance (kind : ℕ) (s : Backfill Id) : ∀ e, Decidable (s.Admits kind e)
  | .create _ _ => inferInstanceAs (Decidable (_ → _))
  | .backfill _ _ _ => inferInstanceAs (Decidable (_ ≠ _))
  | .tick _ | .mark _ _ | .sweep _ | .pick _ _ | .lease _ | .derive _ _ | .record _ | .busy _
  | .release _ | .drop _ | .crash => isTrue trivial

/-- A crash ends the backfill. -/
def cursorAfter : QueueEvent Id → Option BackfillCursor → Option BackfillCursor
  | .crash, _ => none
  | _, cursor => cursor

omit [DecidableEq Id] in
theorem cursorAfter_some {e : QueueEvent Id} {cursor : Option BackfillCursor}
    {c : BackfillCursor} (h : cursorAfter e cursor = some c) : cursor = some c := by
  cases e <;> first | exact h | cases h

/-- A batch that enqueues nothing reports completion. -/
def step (kind : ℕ) (s : Backfill Id) : BackfillEvent Id → Option (Backfill Id)
  | .boot => some { s with cursor := some .start }
  | .batch limit =>
      s.cursor.map fun cursor =>
        let (done, tables) := deriveBackfillBatch s.queue.tables kind cursor limit
        { queue := { s.queue with tables }
          cursor := if done.1 = 0 then none else some done.2 }
  | .queue e =>
      if s.Admits kind e then
        (s.queue.step e).map fun queue =>
          { queue, cursor := cursorAfter e s.cursor }
      else none

/-- An empty file. -/
def Init (s : Backfill Id) : Prop := DeriveQueue.Init s.queue ∧ s.cursor = none

/-- Each parent of a changeset that is created has its row, or the create brings
none and the parent is stored in a lower generation. -/
def OnRowed (kind : ℕ) (s : Backfill Id) : BackfillEvent Id → Prop
  | .queue (.create node kinds) => ∀ p ∈ node.parents,
      (deriveGet s.queue.tables.rows ⟨kind, node.repoId, p⟩).isSome ∨
        kind ∉ kinds.map Prod.fst ∧ StoredBelow s.queue.tables.nodes node p
  | _ => True

instance (kind : ℕ) (s : Backfill Id) : ∀ e, Decidable (OnRowed kind s e)
  | .queue (.create node _) => inferInstanceAs (Decidable (∀ p ∈ node.parents, _))
  | .boot | .batch _ => isTrue trivial
  | .queue (.tick _) | .queue (.backfill _ _ _) | .queue (.mark _ _) | .queue (.sweep _)
  | .queue (.pick _ _) | .queue (.lease _) | .queue (.derive _ _) | .queue (.record _)
  | .queue (.busy _) | .queue (.release _) | .queue (.drop _) | .queue .crash => isTrue trivial

end Backfill

/-! ### One batch -/

variable {t : DeriveTables Id} {kind : ℕ} {c : BackfillCursor} {limit : ℕ}

/-- The changesets behind the cursor without a row, in scan order. -/
def backfillOrder (t : DeriveTables Id) (kind : ℕ) (c : BackfillCursor) :
    List (QueueNode Id × ℕ) :=
  ((t.nodes.zipIdx 1).filter fun e =>
    decide (c.Before e) && (deriveGet t.rows ⟨kind, e.1.repoId, e.1.id⟩).isNone).insertionSort
      scanBefore

theorem backfillScan_eq : backfillScan t kind c limit = (backfillOrder t kind c).take limit := rfl

theorem mem_backfillOrder {e : QueueNode Id × ℕ} : e ∈ backfillOrder t kind c ↔
    e ∈ t.nodes.zipIdx 1 ∧ c.Before e ∧ deriveGet t.rows ⟨kind, e.1.repoId, e.1.id⟩ = none := by
  rw [backfillOrder, List.mem_insertionSort, List.mem_filter]
  simp

theorem backfillOrder_pairwise : (backfillOrder t kind c).Pairwise scanBefore := by
  have htotal : Std.Total fun a b : QueueNode Id × ℕ => scanBefore a b :=
    ⟨fun a b => by unfold scanBefore; omega⟩
  have htrans : IsTrans (QueueNode Id × ℕ) scanBefore :=
    ⟨fun a b c => by unfold scanBefore; omega⟩
  exact List.pairwise_insertionSort _ _

/-- The rows a batch appends. -/
theorem backfill_rows (hnodes : NodesDistinct t.nodes) :
    (deriveBackfillBatch t kind c limit).2.rows =
      t.rows ++ (backfillScan t kind c limit).map fun e => blankRow ⟨kind, e.1.repoId, e.1.id⟩ := by
  have hnodup : ((backfillScan t kind c limit).map fun e => (e.1.repoId, e.1.id)).Nodup := by
    have hzip : ((t.nodes.zipIdx 1).map fun e => (e.1.repoId, e.1.id)).Nodup := by
      have hfst : (t.nodes.zipIdx 1).map (fun e => (e.1.repoId, e.1.id)) =
          t.nodes.map fun n => (n.repoId, n.id) := by
        conv_rhs => rw [← List.zipIdx_map_fst 1 t.nodes, List.map_map]
        rfl
      rw [hfst]
      exact hnodes
    have horder : ((backfillOrder t kind c).map fun e => (e.1.repoId, e.1.id)).Nodup := by
      refine (((List.perm_insertionSort _ _).map _).nodup_iff).mpr ?_
      exact hzip.sublist (List.filter_sublist.map _)
    rw [backfillScan_eq]
    exact horder.sublist ((List.take_sublist _ _).map _)
  have hfresh : ∀ e ∈ backfillScan t kind c limit,
      deriveGet t.rows ⟨kind, e.1.repoId, e.1.id⟩ = none :=
    fun e he => (mem_backfillOrder.mp (List.mem_of_mem_take he)).2.2
  -- each insert finds no row, so it appends one
  have hfold : ∀ (scan : List (QueueNode Id × ℕ)) (rows : List (DeriveRow Id)),
      (scan.map fun e => (e.1.repoId, e.1.id)).Nodup →
      (∀ e ∈ scan, deriveGet rows ⟨kind, e.1.repoId, e.1.id⟩ = none) →
      scan.foldl (fun rows e => deriveInsertIgnore rows (blankRow ⟨kind, e.1.repoId, e.1.id⟩)) rows =
        rows ++ scan.map fun e => blankRow ⟨kind, e.1.repoId, e.1.id⟩ := by
    intro scan
    induction scan with
    | nil => intro rows _ _; simp
    | cons e scan ih =>
        intro rows hkeys hnone
        rw [List.map_cons, List.nodup_cons] at hkeys
        have he := hnone e List.mem_cons_self
        have hinsert : deriveInsertIgnore rows (blankRow ⟨kind, e.1.repoId, e.1.id⟩) =
            rows ++ [blankRow ⟨kind, e.1.repoId, e.1.id⟩] := by
          rw [deriveInsertIgnore, if_neg (by rw [blankRow, he]; simp)]
        rw [List.foldl_cons, hinsert, ih _ hkeys.2, List.map_cons, List.append_assoc]
        · rfl
        · intro e' he'
          rw [deriveGet_append he, if_neg]
          · exact hnone e' (List.mem_cons_of_mem _ he')
          · intro heq
            rw [blankRow, DeriveKey.mk.injEq] at heq
            exact hkeys.1 (List.mem_map.mpr ⟨e', he', by rw [heq.2.1, heq.2.2]⟩)
  exact hfold _ t.rows hnodup hfresh

theorem backfill_keys (hnodes : NodesDistinct t.nodes) :
    rowKeys (deriveBackfillBatch t kind c limit).2.rows = rowKeys t.rows ++
      (backfillScan t kind c limit).map fun e => ⟨kind, e.1.repoId, e.1.id⟩ := by
  rw [rowKeys, backfill_rows hnodes, List.map_append, List.map_map]
  rfl

/-- A batch keeps the rows there are and adds pending ones. -/
theorem backfill_get (hnodes : NodesDistinct t.nodes) (key : DeriveKey Id) :
    (∀ row, deriveGet t.rows key = some row →
        deriveGet (deriveBackfillBatch t kind c limit).2.rows key = some row) ∧
      ∀ row, deriveGet (deriveBackfillBatch t kind c limit).2.rows key = some row →
        deriveGet t.rows key = some row ∨ deriveGet t.rows key = none ∧ row = blankRow key := by
  have hget : deriveGet (deriveBackfillBatch t kind c limit).2.rows key =
      (deriveGet t.rows key).or (deriveGet ((backfillScan t kind c limit).map fun e =>
        blankRow ⟨kind, e.1.repoId, e.1.id⟩) key) := by
    rw [backfill_rows hnodes, deriveGet, List.find?_append]
    rfl
  refine ⟨fun row hrow => by rw [hget, hrow, Option.some_or], fun row hrow => ?_⟩
  cases hold : deriveGet t.rows key with
  | some old =>
      rw [hget, hold, Option.some_or] at hrow
      exact .inl hrow
  | none =>
      rw [hget, hold, Option.none_or] at hrow
      obtain ⟨e, -, rfl⟩ := List.mem_map.mp (deriveGet_mem hrow)
      have hkey := deriveGet_key hrow
      exact .inr ⟨rfl, by rw [← hkey]; rfl⟩

omit [DecidableEq Id] in
theorem mem_rowids {nodes : List (QueueNode Id)} {e : QueueNode Id × ℕ} :
    e ∈ nodes.zipIdx 1 ↔ 1 ≤ e.2 ∧ nodes[e.2 - 1]? = some e.1 :=
  List.mk_mem_zipIdx_iff_le_and_getElem?_sub

/-- No changeset at or before the cursor lacks its row. -/
def Covered (kind : ℕ) (t : DeriveTables Id) (c : BackfillCursor) : Prop :=
  ∀ e ∈ t.nodes.zipIdx 1, ¬ c.Before e →
    (deriveGet t.rows ⟨kind, e.1.repoId, e.1.id⟩).isSome

theorem Covered.start : Covered kind t .start := by
  intro e _ hbefore
  have hgeneration : (0 : ℤ) ≤ e.1.generation := Int.natCast_nonneg _
  have hlower : (-1 : ℤ) < e.1.generation := by omega
  exact absurd (.inl hlower) hbefore

/-- A changeset without a row is in the batch or behind all of it. -/
theorem Covered.scan (h : Covered kind t c) (limit : ℕ) {e : QueueNode Id × ℕ} (he : e ∈ t.nodes.zipIdx 1)
    (hnone : deriveGet t.rows ⟨kind, e.1.repoId, e.1.id⟩ = none) :
    e ∈ backfillScan t kind c limit ∨ ∀ x ∈ backfillScan t kind c limit, scanBefore x e := by
  have hmem : e ∈ backfillOrder t kind c := by
    refine mem_backfillOrder.mpr ⟨he, ?_, hnone⟩
    by_contra hbehind
    have hsome := h e he hbehind
    rw [hnone] at hsome
    cases hsome
  rw [backfillScan_eq]
  have hpairwise : (backfillOrder t kind c).Pairwise scanBefore := backfillOrder_pairwise
  rw [← List.take_append_drop limit (backfillOrder t kind c)] at hmem hpairwise
  rcases List.mem_append.mp hmem with hmem | hmem
  · exact .inl hmem
  · exact .inr fun x hx => (List.pairwise_append.mp hpairwise).2.2 x hx e hmem

/-- The cursor moves on over rows. -/
theorem Covered.batch (h : Covered kind t c) (hnodes : NodesDistinct t.nodes) :
    Covered kind (deriveBackfillBatch t kind c limit).2 (deriveBackfillBatch t kind c limit).1.2 := by
  intro e he hbefore
  have he : e ∈ t.nodes.zipIdx 1 := he
  have hkey : (⟨kind, e.1.repoId, e.1.id⟩ : DeriveKey Id) ∈
      rowKeys (deriveBackfillBatch t kind c limit).2.rows := by
    rw [backfill_keys hnodes, List.mem_append]
    cases hrow : deriveGet t.rows ⟨kind, e.1.repoId, e.1.id⟩ with
    | some row => exact .inl (mem_rowKeys.mpr (by rw [hrow]; rfl))
    | none =>
        refine .inr ?_
        rcases h.scan limit he hrow with hmem | hall
        · exact List.mem_map.mpr ⟨e, hmem, rfl⟩
        · cases hlast : (backfillScan t kind c limit).getLast? with
          | none =>
              have hnext : (deriveBackfillBatch t kind c limit).1.2 = c := by
                simp only [deriveBackfillBatch, hlast]
              rw [hnext] at hbefore
              have hsome := h e he hbefore
              rw [hrow] at hsome
              cases hsome
          | some last =>
              have hnext : (deriveBackfillBatch t kind c limit).1.2 =
                  ⟨last.1.generation, last.2⟩ := by
                simp only [deriveBackfillBatch, hlast]
              rw [hnext] at hbefore
              have hmem := List.mem_of_getLast? hlast
              have hle := hall last hmem
              have hsame : last.2 = e.2 := by
                unfold BackfillCursor.Before at hbefore
                unfold scanBefore at hle
                simp only at hbefore
                omega
              -- a rowid has one changeset
              have hscan : last ∈ t.nodes.zipIdx 1 :=
                (mem_backfillOrder.mp (List.mem_of_mem_take hmem)).1
              have heq : last.1 = e.1 := by
                have hat := mem_rowids.mp hscan
                have hat' := mem_rowids.mp he
                rw [hsame, hat'.2] at hat
                exact (Option.some.inj hat.2).symm
              exact List.mem_map.mpr ⟨last, hmem, by rw [heq]⟩
  exact mem_rowKeys.mp hkey

/-- A batch rows parents before children. -/
theorem ParentsFirst.batch (h : ParentsFirst kind t) (hcovered : Covered kind t c)
    (hnodes : NodesDistinct t.nodes) (hdue : ParentsDue kind t) :
    ParentsFirst kind (deriveBackfillBatch t kind c limit).2 := by
  refine h.append (backfill_keys hnodes) (fun _ _ => rfl) ?_
  intro pre key post hsplit hkind p hp
  obtain ⟨l₁, l₂, hscan, rfl, hrest⟩ := List.map_eq_append_iff.mp hsplit
  obtain ⟨e, l₂', rfl, rfl, rfl⟩ := List.map_eq_cons_iff.mp hrest
  have hmem : e ∈ backfillScan t kind c limit := by rw [hscan]; simp
  have he := (mem_backfillOrder.mp (List.mem_of_mem_take hmem)).1
  obtain ⟨n, hn, hrepo, hid, hparent⟩ := mem_queueParents hp
  rw [hnodes.eq hn (List.fst_mem_of_mem_zipIdx he) hrepo hid] at hparent
  rw [List.mem_append]
  rcases hdue e.1 (List.fst_mem_of_mem_zipIdx he) p hparent with hrowed | hbelow
  · exact .inl (mem_rowKeys.mpr hrowed)
  obtain ⟨m, hm, hmrepo, rfl, hlower⟩ := hbelow
  cases hrow : deriveGet t.rows ⟨kind, e.1.repoId, m.id⟩ with
  | some row => exact .inl (mem_rowKeys.mpr (by rw [hrow]; rfl))
  | none =>
      -- the parent is scanned too, and sorts before its child
      refine .inr (List.mem_map.mpr ?_)
      obtain ⟨i, hi⟩ := List.mem_iff_getElem?.mp hm
      have hat : (m, i + 1) ∈ t.nodes.zipIdx 1 := mem_rowids.mpr ⟨by omega, by simpa using hi⟩
      have hbehind : ¬ scanBefore e (m, i + 1) := by
        unfold scanBefore
        simp only
        omega
      refine ⟨(m, i + 1), ?_, by rw [← hmrepo]⟩
      rcases hcovered.scan limit hat (by rw [hmrepo]; exact hrow) with hparentMem | hall
      · have hpairwise : (backfillScan t kind c limit).Pairwise scanBefore :=
          backfillOrder_pairwise.sublist (List.take_sublist _ _)
        rw [hscan] at hparentMem hpairwise
        rcases List.mem_append.mp hparentMem with hfirst | hrest
        · exact hfirst
        · rcases List.mem_cons.mp hrest with heq | hlater
          · rw [← heq] at hlower
            exact absurd hlower (lt_irrefl _)
          · have hsorted := (List.pairwise_append.mp hpairwise).2.1
            exact absurd ((List.pairwise_cons.mp hsorted).1 _ hlater) hbehind
      · exact absurd (hall e hmem) hbehind

/-! ### Runs -/

namespace Backfill

/-- The states of the runs in which every create meets the condition. -/
abbrev Reach (kind : ℕ) : Backfill Id → Prop := Lib.Reach Init (step kind) (OnRowed kind)

structure Inv (kind : ℕ) (s : Backfill Id) : Prop where
  tables : DeriveQueue.TablesWf s.queue
  nodes : NodesDistinct s.queue.tables.nodes
  due : ParentsDue kind s.queue.tables
  first : ParentsFirst kind s.queue.tables
  covered : ∀ c, s.cursor = some c → Covered kind s.queue.tables c

/-- The rows a step appends, when the changesets stay. -/
theorem Inv.rows {s : Backfill Id} (hinv : Inv kind s) {q : DeriveQueue Id} {e : QueueEvent Id}
    (h : s.queue.step e = some q) (hnodes : q.tables.nodes = s.queue.tables.nodes)
    (hnew : ∀ key, deriveGet s.queue.tables.rows key = none →
      (deriveGet q.tables.rows key).isSome → key.kind ≠ kind) :
    NodesDistinct q.tables.nodes ∧ ParentsDue kind q.tables ∧ ParentsFirst kind q.tables ∧
      ∀ c, Covered kind s.queue.tables c → Covered kind q.tables c := by
  obtain ⟨new, hkeys⟩ := DeriveQueue.step_rowKeys h
  have hdistinct : (rowKeys q.tables.rows).Nodup := (hinv.tables.step h).wf.keys
  refine ⟨hnodes ▸ hinv.nodes, fun n hn p hp => ?_, ?_, fun c hcovered e he hbehind => ?_⟩
  · rw [hnodes] at hn
    refine (hinv.due n hn p hp).append ?_ [] (by rw [hnodes, List.append_nil])
    exact hkeys ▸ List.subset_append_left _ _
  · refine hinv.first.append hkeys.symm (fun key _ => by rw [hnodes]) ?_
    intro pre key post hsplit hkind
    have hmem : key ∈ new := by rw [hsplit]; simp
    rw [← hkeys, List.nodup_append] at hdistinct
    have hold : deriveGet s.queue.tables.rows key = none := by
      by_contra hsome
      have hrow := mem_rowKeys.mpr (Option.isSome_iff_ne_none.mpr hsome)
      exact hdistinct.2.2 key hrow key hmem rfl
    have hrowed : (deriveGet q.tables.rows key).isSome :=
      mem_rowKeys.mp (hkeys ▸ List.mem_append_right _ hmem)
    exact absurd hkind (hnew key hold hrowed)
  · rw [hnodes] at he
    have hold := mem_rowKeys.mpr (hcovered e he hbehind)
    exact mem_rowKeys.mp (hkeys ▸ List.mem_append_left _ hold)

/-- A create appends its changeset, and its row if the kind is registered. -/
theorem Inv.create {s : Backfill Id} (hinv : Inv kind s) {q : DeriveQueue Id} {node : QueueNode Id}
    {kinds : List (ℕ × Option DeriveOutcome)} (h : s.queue.step (.create node kinds) = some q)
    (hadmits : s.Admits kind (.create node kinds))
    (hok : OnRowed kind s (.queue (.create node kinds))) :
    NodesDistinct q.tables.nodes ∧ ParentsDue kind q.tables ∧ ParentsFirst kind q.tables ∧
      ∀ c, s.cursor = some c → Covered kind q.tables c := by
  obtain ⟨new, hkeys⟩ := DeriveQueue.step_rowKeys h
  have hdistinct : (rowKeys q.tables.rows).Nodup := (hinv.tables.step h).wf.keys
  have hadds := fun key : DeriveKey Id => @DeriveQueue.step_adds Id _ _ _ _ hinv.tables h key
  rw [DeriveQueue.step] at h
  split_ifs at h with hguard
  obtain ⟨t, ht, rfl⟩ := Option.map_eq_some_iff.mp h
  push Not at hguard
  obtain ⟨hfresh, hregistry⟩ := hguard
  have hnone := hinv.tables.wf.create_none hfresh kinds
  have hnodes : t.nodes = s.queue.tables.nodes ++ [node] :=
    (enqueue_fresh ht hregistry hinv.tables.wf.keys hnone).1
  simp only at hkeys hdistinct hadds ⊢
  have hgrown : rowKeys s.queue.tables.rows ⊆ rowKeys t.rows := by
    rw [← hkeys]
    exact List.subset_append_left _ _
  refine ⟨?_, fun n hn p hp => ?_, ?_, fun c hc e he hbehind => ?_⟩
  · rw [hnodes]
    refine Lib.nodup_insert hinv.nodes fun hmem => ?_
    obtain ⟨n, hn, heq⟩ := List.mem_map.mp hmem
    rw [Prod.mk.injEq] at heq
    exact hfresh (List.any_eq_true.mpr ⟨n, hn, decide_eq_true heq⟩)
  · rw [hnodes] at hn
    rcases List.mem_append.mp hn with hn | hn
    · exact (hinv.due n hn p hp).append hgrown _ hnodes
    · rw [List.mem_singleton.mp hn] at hp ⊢
      have hdue : Due kind s.queue.tables node p := (hok p hp).imp_right And.right
      exact hdue.append hgrown _ hnodes
  · refine hinv.first.append hkeys.symm (fun key hkey => ?_) fun pre key post hsplit hkind p hp => ?_
    · obtain ⟨row, hrow⟩ := Option.isSome_iff_exists.mp (mem_rowKeys.mp hkey)
      obtain ⟨n, hn, hrepo, hid⟩ := hinv.tables.wf.stored key row hrow
      rw [hnodes, ← hrepo, ← hid]
      exact queueParents_append hn
    · have hmem : key ∈ new := by rw [hsplit]; simp
      rw [← hkeys, List.nodup_append] at hdistinct
      have hold : deriveGet s.queue.tables.rows key = none := by
        by_contra hsome
        have hrow := mem_rowKeys.mpr (Option.isSome_iff_ne_none.mpr hsome)
        exact hdistinct.2.2 key hrow key hmem rfl
      have hrowed : (deriveGet t.rows key).isSome :=
        mem_rowKeys.mp (hkeys ▸ List.mem_append_right _ hmem)
      rcases hadds key hold hrowed with ⟨node', kinds', heq, hin, hrepo, hid⟩ | ⟨_, _, _, heq⟩
      · cases heq
        rw [hnodes, hrepo, hid, queueParents_new (by simpa using hfresh)] at hp
        rw [hkind] at hin
        rw [hrepo]
        rcases hok p hp with hrow | ⟨hunqueued, -⟩
        · exact List.mem_append_left _ (mem_rowKeys.mpr hrow)
        · exact absurd hin hunqueued
      · cases heq
  · rw [hnodes, mem_rowids] at he
    rcases Nat.lt_or_ge (e.2 - 1) s.queue.tables.nodes.length with hlt | hge
    · rw [List.getElem?_append_left hlt] at he
      have hold := hinv.covered c hc e (mem_rowids.mpr he) hbehind
      exact mem_rowKeys.mp (hgrown (mem_rowKeys.mpr hold))
    · rw [List.getElem?_append_right hge] at he
      have hnode : e.1 = node := by
        have hget := he.2
        rw [List.getElem?_singleton] at hget
        split_ifs at hget
        exact (Option.some.inj hget).symm
      have hqueued := hadmits (by rw [hc]; rfl)
      rw [hnode]
      refine enqueue_rowed ht hregistry hinv.tables.wf.keys hnone ?_ hqueued
      simp [changesetExists]

/-- Any other event: the rows it appends, if any, are of another kind. -/
theorem Inv.other {s : Backfill Id} (hinv : Inv kind s) {q : DeriveQueue Id} {e : QueueEvent Id}
    (h : s.queue.step e = some q) (hadmits : s.Admits kind e)
    (hcreate : ∀ node kinds, e ≠ .create node kinds) :
    NodesDistinct q.tables.nodes ∧ ParentsDue kind q.tables ∧ ParentsFirst kind q.tables ∧
      ∀ c, Covered kind s.queue.tables c → Covered kind q.tables c := by
  refine hinv.rows h (DeriveQueue.step_nodes h hcreate) fun key hnone hrowed hkind => ?_
  rcases DeriveQueue.step_adds hinv.tables h hnone hrowed with ⟨node, kinds, heq, -⟩ |
    ⟨k, c, limit, rfl⟩
  · exact hcreate node kinds heq
  · cases h
    have hmem := mem_rowKeys.mpr hrowed
    rw [backfill_keys hinv.nodes, List.mem_append] at hmem
    rcases hmem with hmem | hmem
    · have hsome := mem_rowKeys.mp hmem
      rw [hnone] at hsome
      cases hsome
    · obtain ⟨e, -, rfl⟩ := List.mem_map.mp hmem
      exact hadmits hkind

theorem Inv.step {s s' : Backfill Id} {e : BackfillEvent Id} (hinv : Inv kind s)
    (hok : OnRowed kind s e) (h : s.step kind e = some s') : Inv kind s' := by
  cases e with
  | boot =>
      cases h
      exact ⟨hinv.tables, hinv.nodes, hinv.due, hinv.first, fun c hc => by
        rw [← Option.some.inj hc]; exact .start⟩
  | batch limit =>
      obtain ⟨c, hc, rfl⟩ := Option.map_eq_some_iff.mp h
      have hcovered := hinv.covered c hc
      refine ⟨hinv.tables.step (e := .backfill kind c limit) rfl, hinv.nodes,
        fun n hn p hp => (hinv.due n hn p hp).append ?_ [] (List.append_nil _).symm,
        hinv.first.batch hcovered hinv.nodes hinv.due, fun c' hc' => ?_⟩
      · rw [backfill_keys hinv.nodes]
        exact List.subset_append_left _ _
      simp only at hc'
      split_ifs at hc'
      rw [← Option.some.inj hc']
      exact hcovered.batch hinv.nodes
  | queue e =>
      rw [Backfill.step] at h
      split_ifs at h with hadmits
      obtain ⟨q, hq, rfl⟩ := Option.map_eq_some_iff.mp h
      have htables := hinv.tables.step hq
      by_cases hcreate : ∃ node kinds, e = .create node kinds
      · obtain ⟨node, kinds, rfl⟩ := hcreate
        obtain ⟨hnodes, hdue, hfirst, hcovered⟩ := hinv.create hq hadmits hok
        exact ⟨htables, hnodes, hdue, hfirst, hcovered⟩
      · obtain ⟨hnodes, hdue, hfirst, hcovered⟩ := hinv.other hq hadmits
          fun node kinds heq => hcreate ⟨node, kinds, heq⟩
        exact ⟨htables, hnodes, hdue, hfirst, fun c hc =>
          hcovered c (hinv.covered c (cursorAfter_some hc))⟩

theorem inv_of_reach {s : Backfill Id} (h : Reach kind s) : Inv kind s := by
  refine Lib.Reach.invariant ?_ (fun s e s' _ hinv hok he => hinv.step hok he) h
  rintro ⟨q, cursor⟩ ⟨⟨nowNs, leaseNs, rfl⟩, hcursor⟩
  have hstart : Lib.Reach DeriveQueue.Init DeriveQueue.step (fun _ _ => True)
      (⟨nowNs, leaseNs, ⟨[], [], []⟩, []⟩ : DeriveQueue Id) := .start ⟨nowNs, leaseNs, rfl⟩
  refine ⟨DeriveQueue.tablesWf_of_reach hstart,
    List.nodup_nil, fun n hn => absurd hn List.not_mem_nil, fun pre key post hsplit => ?_,
    fun c hc => ?_⟩
  · simp [rowKeys] at hsplit
  · simp only at hcursor hc
    rw [hcursor] at hc
    cases hc

/-- In every run in which each parent of a create has its row, or the create is
not queued and stands above it: rows stand behind the rows of their parents; a
batch changes no row there is and adds pending ones; and where a batch of at least one changeset reports completion,
every changeset has exactly one row. -/
theorem backfill_of_reach {s : Backfill Id} (h : Reach kind s) :
    ParentsFirst kind s.queue.tables ∧
      ∀ c, s.cursor = some c → ∀ limit,
        (∀ key row, deriveGet s.queue.tables.rows key = some row →
          deriveGet (deriveBackfillBatch s.queue.tables kind c limit).2.rows key = some row) ∧
        (∀ key row, deriveGet (deriveBackfillBatch s.queue.tables kind c limit).2.rows key =
            some row → deriveGet s.queue.tables.rows key = some row ∨
          deriveGet s.queue.tables.rows key = none ∧ row = blankRow key) ∧
        (0 < limit → (deriveBackfillBatch s.queue.tables kind c limit).1.1 = 0 →
          ∀ n ∈ s.queue.tables.nodes,
            (rowKeys s.queue.tables.rows).count ⟨kind, n.repoId, n.id⟩ = 1) := by
  have hinv := inv_of_reach h
  refine ⟨hinv.first, fun c hc limit => ⟨fun key => (backfill_get hinv.nodes key).1,
    fun key => (backfill_get hinv.nodes key).2, fun hlimit hdone n hn => ?_⟩⟩
  have hkeys : (rowKeys s.queue.tables.rows).Nodup := hinv.tables.wf.keys
  refine List.count_eq_one_of_mem hkeys (mem_rowKeys.mpr ?_)
  obtain ⟨i, hi⟩ := List.mem_iff_getElem?.mp hn
  have hat : (n, i + 1) ∈ s.queue.tables.nodes.zipIdx 1 :=
    mem_rowids.mpr ⟨by omega, by simpa using hi⟩
  by_contra hsome
  have hnone : deriveGet s.queue.tables.rows ⟨kind, n.repoId, n.id⟩ = none := by
    simpa using hsome
  -- the first changeset without a row would be in the batch
  have hmem : (n, i + 1) ∈ backfillOrder s.queue.tables kind c := by
    refine mem_backfillOrder.mpr ⟨hat, ?_, hnone⟩
    by_contra hbehind
    exact hsome (hinv.covered c hc _ hat hbehind)
  have hempty : (backfillOrder s.queue.tables kind c).take limit = [] :=
    List.eq_nil_of_length_eq_zero hdone
  rcases List.take_eq_nil_iff.mp hempty with hzero | hnil
  · omega
  · rw [hnil] at hmem
    exact absurd hmem List.not_mem_nil

end Backfill

end

namespace Backfill

/-! ### A create ahead of the cursor -/

/-- A changeset stored without a registry. -/
def offline : BackfillEvent ℕ := .queue (.create ⟨1, 7, 0, []⟩ [])

/-- A create on top of it. -/
def onTop : BackfillEvent ℕ := .queue (.create ⟨1, 8, 1, [7]⟩ [(0, none)])

def empty : Backfill ℕ := ⟨DeriveQueue.fresh, none⟩

/-- The create comes after the batch that rows its parent. -/
theorem backfill_of_reach_behind : ∃ s, Lib.execIf (step 0) (OnRowed 0) empty
      [offline, .boot, .batch 10, onTop] = some s ∧
    ParentsFirst 0 s.queue.tables ∧
      ∀ c, s.cursor = some c → ∀ limit,
        (∀ key row, deriveGet s.queue.tables.rows key = some row →
          deriveGet (deriveBackfillBatch s.queue.tables 0 c limit).2.rows key = some row) ∧
        (∀ key row, deriveGet (deriveBackfillBatch s.queue.tables 0 c limit).2.rows key =
            some row → deriveGet s.queue.tables.rows key = some row ∨
          deriveGet s.queue.tables.rows key = none ∧ row = blankRow key) ∧
        (0 < limit → (deriveBackfillBatch s.queue.tables 0 c limit).1.1 = 0 →
          ∀ n ∈ s.queue.tables.nodes,
            (rowKeys s.queue.tables.rows).count ⟨0, n.repoId, n.id⟩ = 1) := by
  obtain ⟨s, hs⟩ := Option.isSome_iff_exists.mp
    (show (Lib.execIf (step 0) (OnRowed 0) empty [offline, .boot, .batch 10, onTop]).isSome by
      decide +kernel)
  exact ⟨s, hs, backfill_of_reach (Lib.Reach.execIf (.start ⟨⟨0, 10, rfl⟩, rfl⟩) hs)⟩

/-- The create comes between the boot and the batch: the backfill completes, and
the child's row stands before its parent's. -/
theorem create_ahead : ∃ s, Lib.exec (step 0) empty
      [offline, .boot, onTop, .batch 10, .batch 10] = some s ∧ s.cursor = none ∧
    rowKeys s.queue.tables.rows = [⟨0, 1, 8⟩, ⟨0, 1, 7⟩] ∧ ¬ ParentsFirst 0 s.queue.tables := by
  obtain ⟨s, hs⟩ := Option.isSome_iff_exists.mp
    (show (Lib.exec (step 0) empty [offline, .boot, onTop, .batch 10, .batch 10]).isSome by
      decide +kernel)
  have hrows : (Lib.exec (step 0) empty [offline, .boot, onTop, .batch 10, .batch 10]).map
      (fun s => (s.cursor, rowKeys s.queue.tables.rows, queueParents s.queue.tables.nodes 1 8)) =
        some (none, [⟨0, 1, 8⟩, ⟨0, 1, 7⟩], [7]) := by decide +kernel
  rw [hs, Option.map_some, Option.some.injEq, Prod.mk.injEq, Prod.mk.injEq] at hrows
  obtain ⟨hcursor, hkeys, hparents⟩ := hrows
  refine ⟨s, hs, hcursor, hkeys, fun hfirst => ?_⟩
  have hmem := hfirst [] ⟨0, 1, 8⟩ [⟨0, 1, 7⟩] hkeys rfl 7 (by rw [hparents]; simp)
  exact absurd hmem List.not_mem_nil

end Backfill

end Naatre
