import Mathlib.Data.List.Perm.Subperm
import Naatre.Lib.Along
import Naatre.Lib.SlidingWindow
import Naatre.Lib.Table

/-!
The limiter of authentication failures (`state.rs`). A run is a list of
failures, each under some key and some time after the one before it.
-/

namespace Naatre

open Lib

/-! ### The limiter -/

/-- `AuthFailInner`; a map is a list of its entries. -/
structure AuthFailInner where
  /-- key → failure timestamps inside the current window -/
  buckets : List (String × List ℕ) := []
  /-- the times of the rows written, inside the window -/
  rowWindow : List ℕ := []
  globalCount : ℕ := 0
  rowsWritten : ℕ := 0
  deriving DecidableEq

def authFailWindowNs : ℕ := 60 * 1000000000

def authFailPerKeyLimit : ℕ := 10

def authFailGlobalRowCap : ℕ := 200

namespace AuthFailInner

/-- `buckets.entry(key).or_default()`. -/
def bucket (inner : AuthFailInner) (key : String) : List ℕ := (inner.buckets.lookup key).getD []

/-- The map with `key`'s entry replaced, or added. -/
def setBucket (inner : AuthFailInner) (key : String) (times : List ℕ) : List (String × List ℕ) :=
  (key, times) :: inner.buckets.filter fun e => decide (e.1 ≠ key)

/-- `tick_auth_failure`. -/
def tick (inner : AuthFailInner) (key : String) (nowNs : ℕ) : AuthFailInner × Bool :=
  let bucket := (inner.bucket key).filter (fresh authFailWindowNs nowNs)
  let rowWindow := inner.rowWindow.filter (fresh authFailWindowNs nowNs)
  if authFailPerKeyLimit ≤ bucket.length ∨ authFailGlobalRowCap ≤ rowWindow.length then
    ({ inner with
        buckets := inner.setBucket key bucket
        rowWindow := rowWindow
        globalCount := inner.globalCount + 1 },
      false)
  else
    ({ buckets := inner.setBucket key (bucket ++ [nowNs])
       rowWindow := rowWindow ++ [nowNs]
       globalCount := inner.globalCount + 1
       rowsWritten := inner.rowsWritten + 1 },
      true)

end AuthFailInner

/-! ### Runs -/

/-- One failure and what the limiter answered. -/
structure AuthFailure where
  key : String
  nowNs : ℕ
  rowed : Bool
  deriving DecidableEq

/-- The limiter, the time of the last failure, and the failures so far. -/
structure AuthFailRun where
  inner : AuthFailInner := {}
  nowNs : ℕ := 0
  failures : List AuthFailure := []

namespace AuthFailRun

/-- A failure under `e.1`, `e.2` after the one before it. -/
def step (s : AuthFailRun) (e : String × ℕ) : Option AuthFailRun :=
  let nowNs := s.nowNs + e.2
  let (inner, rowed) := s.inner.tick e.1 nowNs
  some ⟨inner, nowNs, s.failures ++ [⟨e.1, nowNs, rowed⟩]⟩

/-- The failures that were answered `true`. -/
def rows (s : AuthFailRun) : List AuthFailure := s.failures.filter (·.rowed)

def rowTimes (s : AuthFailRun) : List ℕ := s.rows.map (·.nowNs)

/-- The times at which a failure under the key was answered `true`. -/
def keyTimes (s : AuthFailRun) (key : String) : List ℕ :=
  (s.rows.filter fun f => decide (f.key = key)).map (·.nowNs)

/-- What the limiter promises after a failure. -/
structure Limited (s : AuthFailRun) : Prop where
  perKey : ∀ key, Capped authFailWindowNs authFailPerKeyLimit (s.keyTimes key)
  global : Capped authFailWindowNs authFailGlobalRowCap s.rowTimes
  count : s.inner.globalCount = s.failures.length
  written : s.inner.rowsWritten = s.rows.length
  stored : ∀ e ∈ s.inner.buckets, ∃ row ∈ s.rows,
    row.key = e.1 ∧ fresh authFailWindowNs s.nowNs row.nowNs = true
  size : s.inner.buckets.length ≤ authFailGlobalRowCap + 1

/-- Every other key stored has a row in the window by now, and this one has or
gets one. -/
def Covered (s : AuthFailRun) (e : String × ℕ) : Prop :=
  let live := fun times : List ℕ => times.any (fresh authFailWindowNs (s.nowNs + e.2))
  (∀ b ∈ s.inner.buckets, b.1 ≠ e.1 → live b.2 = true) ∧
    (live (s.inner.bucket e.1) = true ∨
      (s.inner.rowWindow.filter (fresh authFailWindowNs (s.nowNs + e.2))).length <
        authFailGlobalRowCap)

instance (s : AuthFailRun) (e : String × ℕ) : Decidable (s.Covered e) :=
  inferInstanceAs (Decidable (_ ∧ _))

end AuthFailRun

/-! ### One failure -/

namespace AuthFailInner

variable {inner : AuthFailInner} {key : String} {times : List ℕ}

theorem mem_setBucket {e : String × List ℕ} :
    e ∈ inner.setBucket key times ↔ e = (key, times) ∨ e ∈ inner.buckets ∧ e.1 ≠ key := by
  rw [setBucket, List.mem_cons, List.mem_filter, decide_eq_true_eq]

theorem nodup_setBucket (h : (inner.buckets.map Prod.fst).Nodup) :
    ((inner.setBucket key times).map Prod.fst).Nodup := by
  rw [setBucket, List.map_cons, List.nodup_cons]
  refine ⟨fun hmem => ?_, h.sublist (List.filter_sublist.map _)⟩
  obtain ⟨e, he, hkey⟩ := List.mem_map.mp hmem
  exact of_decide_eq_true (List.mem_filter.mp he).2 hkey

theorem lookup_filter_ne {buckets : List (String × List ℕ)} {k : String} (hne : k ≠ key) :
    (buckets.filter fun e => decide (e.1 ≠ key)).lookup k = buckets.lookup k := by
  induction buckets with
  | nil => rfl
  | cons e buckets ih =>
      by_cases hkey : e.1 = key
      · rw [List.filter_cons_of_neg (by simpa using hkey), ih, List.lookup_cons,
          beq_false_of_ne (hkey ▸ hne)]
      · rw [List.filter_cons_of_pos (by simpa using hkey), List.lookup_cons, List.lookup_cons, ih]

/-- The buckets after one was replaced. -/
theorem bucket_setBucket (rowWindow : List ℕ) (globalCount rowsWritten : ℕ) (k : String) :
    bucket ⟨inner.setBucket key times, rowWindow, globalCount, rowsWritten⟩ k =
      if k = key then times else inner.bucket k := by
  simp only [bucket, setBucket]
  split
  next heq => rw [heq, List.lookup_cons, beq_self_eq_true]; rfl
  next hne => rw [List.lookup_cons, beq_false_of_ne hne, lookup_filter_ne hne]

/-- A bucket of the map is the one its key finds. -/
theorem bucket_of_mem (h : (inner.buckets.map Prod.fst).Nodup) {e : String × List ℕ}
    (he : e ∈ inner.buckets) : inner.bucket e.1 = e.2 := by
  rw [bucket, lookup_of_nodup h (k := e.1) (b := e.2) he]
  rfl

end AuthFailInner

namespace AuthFailRun

variable {s s' : AuthFailRun} {e : String × ℕ}

/-- What the limiter keeps of a run: all rows that are in some window now. -/
structure Kept (s : AuthFailRun) : Prop where
  nodup : (s.inner.buckets.map Prod.fst).Nodup
  bucket : ∀ key, (s.inner.bucket key).filter (fresh authFailWindowNs s.nowNs) =
    (s.keyTimes key).filter (fresh authFailWindowNs s.nowNs)
  window : s.inner.rowWindow.filter (fresh authFailWindowNs s.nowNs) =
    s.rowTimes.filter (fresh authFailWindowNs s.nowNs)
  room : s.inner.rowWindow.length ≤ authFailGlobalRowCap
  perKey : ∀ key, Capped authFailWindowNs authFailPerKeyLimit (s.keyTimes key)
  global : Capped authFailWindowNs authFailGlobalRowCap s.rowTimes
  count : s.inner.globalCount = s.failures.length
  written : s.inner.rowsWritten = s.rows.length

theorem kept_start : Kept {} where
  nodup := List.nodup_nil
  bucket := fun _ => rfl
  window := rfl
  room := Nat.zero_le _
  perKey := fun _ => capped_nil
  global := capped_nil
  count := rfl
  written := rfl

/-- By the next failure the limiter's bucket is what the rows of its key leave. -/
theorem Kept.bucket_later (h : s.Kept) (ns : ℕ) (key : String) :
    (s.inner.bucket key).filter (fresh authFailWindowNs (s.nowNs + ns)) =
      (s.keyTimes key).filter (fresh authFailWindowNs (s.nowNs + ns)) := by
  rw [← filter_fresh_later (Nat.le_add_right s.nowNs ns), h.bucket,
    filter_fresh_later (Nat.le_add_right _ _)]

theorem Kept.window_later (h : s.Kept) (ns : ℕ) :
    s.inner.rowWindow.filter (fresh authFailWindowNs (s.nowNs + ns)) =
      s.rowTimes.filter (fresh authFailWindowNs (s.nowNs + ns)) := by
  rw [← filter_fresh_later (Nat.le_add_right s.nowNs ns), h.window,
    filter_fresh_later (Nat.le_add_right _ _)]

/-- The bucket of the next failure's key, once it is pruned. -/
def bucketNow (s : AuthFailRun) (e : String × ℕ) : List ℕ :=
  (s.inner.bucket e.1).filter (fresh authFailWindowNs (s.nowNs + e.2))

def windowNow (s : AuthFailRun) (e : String × ℕ) : List ℕ :=
  s.inner.rowWindow.filter (fresh authFailWindowNs (s.nowNs + e.2))

/-- The state after a failure that is only counted. -/
def counted (s : AuthFailRun) (e : String × ℕ) : AuthFailRun where
  inner :=
    { buckets := s.inner.setBucket e.1 (s.bucketNow e)
      rowWindow := s.windowNow e
      globalCount := s.inner.globalCount + 1
      rowsWritten := s.inner.rowsWritten }
  nowNs := s.nowNs + e.2
  failures := s.failures ++ [⟨e.1, s.nowNs + e.2, false⟩]

/-- The state after a failure that gets a row. -/
def rowed (s : AuthFailRun) (e : String × ℕ) : AuthFailRun where
  inner :=
    { buckets := s.inner.setBucket e.1 (s.bucketNow e ++ [s.nowNs + e.2])
      rowWindow := s.windowNow e ++ [s.nowNs + e.2]
      globalCount := s.inner.globalCount + 1
      rowsWritten := s.inner.rowsWritten + 1 }
  nowNs := s.nowNs + e.2
  failures := s.failures ++ [⟨e.1, s.nowNs + e.2, true⟩]

theorem step_cases (h : s.step e = some s') :
    ((authFailPerKeyLimit ≤ (s.bucketNow e).length ∨
        authFailGlobalRowCap ≤ (s.windowNow e).length) ∧ s' = s.counted e) ∨
    ((s.bucketNow e).length < authFailPerKeyLimit ∧
      (s.windowNow e).length < authFailGlobalRowCap ∧ s' = s.rowed e) := by
  simp only [step, AuthFailInner.tick] at h
  split_ifs at h with hfull
  · exact .inl ⟨hfull, (Option.some.inj h).symm⟩
  · rw [not_or, Nat.not_le, Nat.not_le] at hfull
    exact .inr ⟨hfull.1, hfull.2, (Option.some.inj h).symm⟩

theorem rows_counted : (s.counted e).rows = s.rows := by simp [counted, rows]

theorem rows_rowed : (s.rowed e).rows = s.rows ++ [⟨e.1, s.nowNs + e.2, true⟩] := by
  simp [rowed, rows]

theorem keyTimes_counted (key : String) : (s.counted e).keyTimes key = s.keyTimes key := by
  rw [keyTimes, rows_counted, keyTimes]

theorem keyTimes_rowed (key : String) : (s.rowed e).keyTimes key =
    if key = e.1 then s.keyTimes key ++ [s.nowNs + e.2] else s.keyTimes key := by
  rw [keyTimes, rows_rowed, List.filter_append, List.map_append]
  split
  next heq => simp [keyTimes, heq]
  next hne => simp [keyTimes, Ne.symm hne]

theorem rowTimes_rowed : (s.rowed e).rowTimes = s.rowTimes ++ [s.nowNs + e.2] := by
  rw [rowTimes, rows_rowed, List.map_append, List.map_singleton, rowTimes]

theorem filter_bucketNow :
    (s.bucketNow e).filter (fresh authFailWindowNs (s.nowNs + e.2)) = s.bucketNow e :=
  filter_fresh_later le_rfl _

theorem filter_windowNow :
    (s.windowNow e).filter (fresh authFailWindowNs (s.nowNs + e.2)) = s.windowNow e :=
  filter_fresh_later le_rfl _

theorem fresh_next : fresh authFailWindowNs (s.nowNs + e.2) (s.nowNs + e.2) = true :=
  fresh_now (by decide) _

theorem Kept.counted (h : s.Kept) : (s.counted e).Kept where
  nodup := AuthFailInner.nodup_setBucket h.nodup
  bucket := fun key => by
    rw [keyTimes_counted, AuthFailRun.counted, AuthFailInner.bucket_setBucket]
    split
    next heq => rw [filter_bucketNow, bucketNow, h.bucket_later, heq]
    next => exact h.bucket_later e.2 key
  window := by
    rw [rowTimes, rows_counted]
    exact filter_windowNow.trans (h.window_later e.2)
  room := (List.length_filter_le _ _).trans h.room
  perKey := fun key => by
    rw [keyTimes_counted]
    exact h.perKey key
  global := by
    rw [rowTimes, rows_counted]
    exact h.global
  count := by
    rw [AuthFailRun.counted, List.length_append, List.length_singleton, h.count]
  written := by
    rw [rows_counted]
    exact h.written

theorem Kept.rowed (h : s.Kept) (hkey : (s.bucketNow e).length < authFailPerKeyLimit)
    (hall : (s.windowNow e).length < authFailGlobalRowCap) : (s.rowed e).Kept where
  nodup := AuthFailInner.nodup_setBucket h.nodup
  bucket := fun key => by
    rw [keyTimes_rowed, AuthFailRun.rowed, AuthFailInner.bucket_setBucket]
    split
    next heq =>
      rw [List.filter_append, filter_bucketNow, List.filter_append, bucketNow, h.bucket_later, heq]
    next => exact h.bucket_later e.2 key
  window := by
    rw [rowTimes_rowed, AuthFailRun.rowed, List.filter_append, filter_windowNow,
      List.filter_append, windowNow, h.window_later]
  room := by
    rw [AuthFailRun.rowed, List.length_append, List.length_singleton]
    exact hall
  perKey := fun key => by
    rw [keyTimes_rowed]
    split
    next heq =>
      refine (h.perKey key).insert ?_
      rw [heq, ← h.bucket_later]
      exact hkey
    next => exact h.perKey key
  global := by
    rw [rowTimes_rowed]
    refine h.global.insert ?_
    rw [← h.window_later]
    exact hall
  count := by
    rw [AuthFailRun.rowed, List.length_append, List.length_singleton, h.count]
  written := by
    rw [rows_rowed, AuthFailRun.rowed, List.length_append, List.length_singleton, h.written]

theorem Kept.next (hs : s.Kept) (h : s.step e = some s') : s'.Kept := by
  rcases step_cases h with ⟨-, rfl⟩ | ⟨hkey, hall, rfl⟩
  · exact hs.counted
  · exact hs.rowed hkey hall

/-! ### The stored keys -/

/-- The buckets with a row in the window are those of the keys that have one. -/
theorem Kept.any_fresh_iff (h : s.Kept) {b : String × List ℕ} (hb : b ∈ s.inner.buckets) :
    b.2.any (fresh authFailWindowNs s.nowNs) = true ↔ ∃ row ∈ s.rows,
      row.key = b.1 ∧ fresh authFailWindowNs s.nowNs row.nowNs = true := by
  have htimes := h.bucket b.1
  rw [AuthFailInner.bucket_of_mem h.nodup hb] at htimes
  constructor
  · intro hany
    obtain ⟨time, htime, hfresh⟩ := List.any_eq_true.mp hany
    have hmem : time ∈ (s.keyTimes b.1).filter (fresh authFailWindowNs s.nowNs) :=
      htimes ▸ List.mem_filter.mpr ⟨htime, hfresh⟩
    obtain ⟨row, hrow, rfl⟩ := List.mem_map.mp (List.mem_filter.mp hmem).1
    obtain ⟨hrow, hkey⟩ := List.mem_filter.mp hrow
    exact ⟨row, hrow, of_decide_eq_true hkey, hfresh⟩
  · rintro ⟨row, hrow, hkey, hfresh⟩
    have hmem : row.nowNs ∈ b.2.filter (fresh authFailWindowNs s.nowNs) := by
      rw [htimes]
      exact List.mem_filter.mpr ⟨List.mem_map.mpr
        ⟨row, List.mem_filter.mpr ⟨hrow, decide_eq_true hkey⟩, rfl⟩, hfresh⟩
    exact List.any_eq_true.mpr ⟨_, (List.mem_filter.mp hmem).1, hfresh⟩

/-- Keys that all have a row in the window are no more than such rows. -/
theorem Kept.size (h : s.Kept)
    (hstored : ∀ b ∈ s.inner.buckets, b.2.any (fresh authFailWindowNs s.nowNs) = true) :
    s.inner.buckets.length ≤ authFailGlobalRowCap + 1 := by
  have hsub : s.inner.buckets.map Prod.fst ⊆
      (s.rows.filter fun row => fresh authFailWindowNs s.nowNs row.nowNs).map (·.key) := by
    intro key hkey
    obtain ⟨b, hb, rfl⟩ := List.mem_map.mp hkey
    obtain ⟨row, hrow, hkey, hfresh⟩ := (h.any_fresh_iff hb).mp (hstored b hb)
    exact List.mem_map.mpr ⟨row, List.mem_filter.mpr ⟨hrow, hfresh⟩, hkey⟩
  calc s.inner.buckets.length
      = (s.inner.buckets.map Prod.fst).length := (List.length_map _).symm
    _ ≤ ((s.rows.filter fun row => fresh authFailWindowNs s.nowNs row.nowNs).map
          (·.key)).length := (List.Nodup.subperm h.nodup hsub).length_le
    _ = (s.rowTimes.filter (fresh authFailWindowNs s.nowNs)).length := by
        rw [List.length_map, rowTimes, List.filter_map, List.length_map]
        rfl
    _ = (s.inner.rowWindow.filter (fresh authFailWindowNs s.nowNs)).length := by rw [h.window]
    _ ≤ authFailGlobalRowCap + 1 := (List.length_filter_le _ _).trans (h.room.trans (by decide))

/-- Of a kept run only the stored keys can break the promise. -/
theorem Kept.limited_iff (h : s.Kept) : s.Limited ↔
    ∀ b ∈ s.inner.buckets, b.2.any (fresh authFailWindowNs s.nowNs) = true := by
  constructor
  · intro hlimited b hb
    exact (h.any_fresh_iff hb).mpr (hlimited.stored b hb)
  · intro hstored
    exact ⟨h.perKey, h.global, h.count, h.written,
      fun b hb => (h.any_fresh_iff hb).mp (hstored b hb), h.size hstored⟩

/-- A failure under `e.1` replaces its bucket only. -/
theorem forall_setBucket (times : List ℕ) (live : List ℕ → Prop) :
    (∀ b ∈ s.inner.setBucket e.1 times, live b.2) ↔
      live times ∧ ∀ b ∈ s.inner.buckets, b.1 ≠ e.1 → live b.2 := by
  constructor
  · intro h
    exact ⟨h _ (AuthFailInner.mem_setBucket.mpr (.inl rfl)),
      fun b hb hne => h b (AuthFailInner.mem_setBucket.mpr (.inr ⟨hb, hne⟩))⟩
  · rintro ⟨hown, hothers⟩ b hb
    rcases AuthFailInner.mem_setBucket.mp hb with rfl | ⟨hb, hne⟩
    · exact hown
    · exact hothers b hb hne

theorem leads_limited_iff (hs : s.Kept) : Leads step Limited s e ↔ s.Covered e := by
  obtain ⟨s', h⟩ : ∃ s', s.step e = some s' := ⟨_, rfl⟩
  have hleads : Leads step Limited s e ↔ s'.Limited := by
    constructor
    · intro hleads
      exact hleads s' h
    · intro hlimited t ht
      exact Option.some.inj (h.symm.trans ht) ▸ hlimited
  rw [hleads, (hs.next h).limited_iff]
  let live := fun times : List ℕ => times.any (fresh authFailWindowNs (s.nowNs + e.2))
  have hbucket : live (s.bucketNow e) = live (s.inner.bucket e.1) := by
    simp only [live, bucketNow, List.any_filter, Bool.and_self]
  rcases step_cases h with ⟨hfull, rfl⟩ | ⟨-, hall, rfl⟩
  · refine (forall_setBucket _ (live · = true)).trans ?_
    rw [hbucket, Covered, and_comm]
    refine and_congr_right fun _ => ⟨Or.inl, ?_⟩
    rintro (hlive | hroom)
    · exact hlive
    · -- the row window has room, so it is the bucket that is full
      rcases hfull with hfull | hfull
      · obtain ⟨time, htime⟩ := List.exists_mem_of_length_pos (Nat.lt_of_lt_of_le (by decide) hfull)
        exact List.any_eq_true.mpr ⟨time, List.mem_filter.mp htime⟩
      · exact absurd hroom (Nat.not_lt.mpr hfull)
  · refine (forall_setBucket _ (live · = true)).trans ?_
    rw [Covered]
    constructor
    · rintro ⟨-, hothers⟩
      exact ⟨hothers, .inr hall⟩
    · rintro ⟨hothers, -⟩
      refine ⟨List.any_eq_true.mpr ⟨_, List.mem_append_right _ (List.mem_singleton_self _),
        fresh_next⟩, hothers⟩

/-- Along every run the limiter keeps its promise after each failure exactly
when each failure finds the stored keys covered. -/
theorem authFail_limited_iff (failures : List (String × ℕ)) :
    Along step (Leads step Limited) {} failures ↔ Along step Covered {} failures :=
  Along.iff (I := Kept) (fun _ _ hs => leads_limited_iff hs) (fun _ _ _ hs _ h => hs.next h)
    kept_start

/-- A second key a minute after the first, whose bucket stays. -/
theorem stale_key_stays :
    ¬ Along step (Leads step Limited) {} [("tk:00", 0), ("tk:01", 60 * 1000000000)] := by
  intro h
  have hlimited := (h.2 _ rfl).1 _ rfl
  obtain ⟨row, hrow, hkey, hfresh⟩ := hlimited.stored ("tk:00", [0]) (by decide)
  revert row
  decide

end AuthFailRun

end Naatre
