import BoaIdb.Cursor.Completeness

/-!
Where a seek leaves the merge cursor.

A seek sets a floor and advances once. The floor of an index is a pair of a key
and a primary key, so a seek to a key alone has to choose a primary key; it takes
the smallest one for both directions.
-/

namespace BoaIdb

open OrdMap CursorMaps

/-! ### At or past -/

/-- `k` is the target, or lies behind it in walk order. -/
def reaches {K : Type} [LinearOrder K] (desc : Bool) (target k : K) : Bool :=
  decide (target = k) || ahead desc target k

theorem reaches_iff {K : Type} [LinearOrder K] {desc : Bool} {target k : K} :
    reaches desc target k = true ↔ target = k ∨ ahead desc target k = true := by
  rw [reaches, Bool.or_eq_true, decide_eq_true_eq]

theorem reaches_trans {K : Type} [LinearOrder K] {desc : Bool} {a b c : K}
    (hab : reaches desc a b = true) (hbc : ahead desc b c = true) : reaches desc a c = true := by
  rcases reaches_iff.mp hab with rfl | hab
  · exact reaches_iff.mpr (.inr hbc)
  · exact reaches_iff.mpr (.inr (ahead_trans hab hbc))

theorem reaches_false {K : Type} [LinearOrder K] {target k : K} :
    reaches false target k = true ↔ target ≤ k := by
  rw [reaches_iff, le_iff_eq_or_lt]
  simp [ahead]

theorem reaches_true {K : Type} [LinearOrder K] {target k : K} :
    reaches true target k = true ↔ k ≤ target := by
  rw [reaches_iff, le_iff_eq_or_lt, eq_comm]
  simp [ahead]

/-- Entries of an index compare by key, then by primary key. -/
theorem reaches_indexKey {desc : Bool} {a b : IndexKey} (h : a.index = b.index) :
    reaches desc a b = true ↔ ahead desc a.key b.key = true ∨
      a.key = b.key ∧ reaches desc a.primaryKey b.primaryKey = true := by
  rw [reaches_iff, reaches_iff, ahead_indexKey h]
  constructor
  · rintro (rfl | hk | ⟨hk, hp⟩)
    · exact .inr ⟨rfl, .inl rfl⟩
    · exact .inl hk
    · exact .inr ⟨hk, .inr hp⟩
  · rintro (hk | ⟨hk, hp | hp⟩)
    · exact .inr (.inl hk)
    · left
      obtain ⟨ai, ak, ap⟩ := a
      simp only at h hk hp
      rw [h, hk, hp]
    · exact .inr (.inr ⟨hk, hp⟩)

/-- A row at or past the target of a seek. -/
def atOrPast (desc : Bool) (target : CursorSeek) (r : Bytes × Bytes × Option Bytes) : Bool :=
  match target with
  | .first => true
  | .key key => reaches desc key r.1
  | .keyAndPrimaryKey key pkey =>
      ahead desc key r.1 || (decide (key = r.1) && reaches desc pkey r.2.1)

/-- The first row in direction order at or past the target. -/
def CursorMaps.firstAtOrPast (maps : CursorMaps) (src : SourceRef) (range : EncodedRange)
    (dir : Direction) (keyOnly : Bool) (target : CursorSeek) :
    Option (Bytes × Bytes × Option Bytes) :=
  (maps.rows src range dir keyOnly).find? (atOrPast dir.isPrev target)

/-- Targets with a key; a primary key is for the directions that visit every row. -/
def CursorSeek.Addresses (dir : Direction) : CursorSeek → Prop
  | .first => False
  | .key _ => True
  | .keyAndPrimaryKey _ _ => dir.isUnique = false

/-- The target as a floor keeps it: a store has no primary keys of its own, an index floor
always has one. -/
def CursorSeek.floor (src : SourceRef) : CursorSeek → CursorSeek
  | .first => .first
  | .key k =>
      match src with
      | .store _ => .key k
      | .index _ _ => .keyAndPrimaryKey k []
  | .keyAndPrimaryKey k pk =>
      match src with
      | .store _ => .key k
      | .index _ _ => .keyAndPrimaryKey k pk

/-- The condition under which a floor lets through the rows that a target asks for: for a
store, a row with the target's key has a primary key at or past the target's; for a backward
walk of an index, no row has the target's key (other than one with an empty primary key). -/
def CursorMaps.FloorExact (maps : CursorMaps) (src : SourceRef) (range : EncodedRange)
    (dir : Direction) (keyOnly : Bool) : CursorSeek → Prop
  | .first => True
  | .key key => ∀ store index, src = .index store index → dir.isPrev = true →
      ∀ r ∈ maps.rows src range dir keyOnly, r.1 = key → r.2.1 = []
  | .keyAndPrimaryKey key pkey => ∀ store, src = .store store →
      ∀ r ∈ maps.rows src range dir keyOnly, r.1 = key → reaches dir.isPrev pkey r.2.1 = true

namespace Cursor

/-! ### Positions -/

/-- A cursor that was opened so, wherever it stands. -/
structure Scans (c : Cursor) (maps : CursorMaps) (src : SourceRef) (range : EncodedRange)
    (dir : Direction) (keyOnly : Bool) : Prop where
  kind : c.kind = (scan maps src range dir keyOnly).kind
  maps : c.maps = maps
  range : c.range = range
  desc : c.desc = dir.isPrev
  keyOnly : c.keyOnly = keyOnly

theorem scans_scan (maps : CursorMaps) (src : SourceRef) (range : EncodedRange) (dir : Direction)
    (keyOnly : Bool) : (scan maps src range dir keyOnly).Scans maps src range dir keyOnly := by
  cases src <;> exact ⟨rfl, rfl, rfl, rfl, rfl⟩

theorem pure_inj {α : Type} {x y : α} (h : (pure x : CursorResult α) = pure y) : x = y :=
  Except.ok.inj (Option.some.inj h)

/-- The next row, or the end. -/
def Lands (result : CursorResult (Bool × Cursor)) : Option (Bytes × Bytes × Option Bytes) → Prop
  | some r => ∃ c', result = pure (true, c') ∧ c'.exhausted = false ∧ c'.row = r
  | none => ∃ c', result = pure (false, c') ∧ c'.exhausted = true

theorem Lands.unique {result : CursorResult (Bool × Cursor)}
    {r r' : Option (Bytes × Bytes × Option Bytes)} (h : Lands result r) (h' : Lands result r') :
    r = r' := by
  cases r with
  | none =>
      obtain ⟨c, rfl, -⟩ := h
      cases r' with
      | none => rfl
      | some r' =>
          obtain ⟨c', heq, -⟩ := h'
          cases pure_inj heq
  | some r =>
      obtain ⟨c, rfl, -, rfl⟩ := h
      cases r' with
      | none =>
          obtain ⟨c', heq, -⟩ := h'
          cases pure_inj heq
      | some r' =>
          obtain ⟨c', heq, -, rfl⟩ := h'
          cases pure_inj heq
          rfl

/-- A cursor that finds no row is exhausted. -/
theorem exhausted_of_advance {c c' : Cursor} (h : c.advance = pure (false, c')) :
    c'.exhausted = true := by
  unfold advance at h
  split at h
  next store hkind =>
      unfold advanceStore at h
      dsimp only at h
      split at h
      · cases h
      · obtain ⟨-, rfl⟩ := Prod.ext_iff.mp (pure_inj h)
        rfl
      · cases pure_inj h
  next store index unique hkind =>
      unfold advanceIndex at h
      dsimp only at h
      split at h
      · cases h
      · obtain ⟨-, rfl⟩ := Prod.ext_iff.mp (pure_inj h)
        rfl
      · split_ifs at h
        · cases hmin : c.groupMin store index _ with
          | none => rw [hmin] at h; cases h
          | some r =>
              rw [hmin] at h
              cases r <;> cases h
        · cases pure_inj h
        · cases pure_inj h

theorem Enumerates.lands {c : Cursor} {rows : List (Bytes × Bytes × Option Bytes)}
    (h : Enumerates c rows) : Lands c.advance rows.head? := by
  cases h with
  | done h => exact ⟨_, h, exhausted_of_advance h⟩
  | more h hlive _ _ => exact ⟨_, h, hlive, rfl⟩

/-! ### Behind a floor -/

variable {c : Cursor}

/-- Below the range and the floor, whichever is lower. -/
theorem startRecordUpper_floor {store : StoreId} {key : Bytes}
    (hfloor : c.floorRecord = some ⟨store, key⟩) :
    ∃ k, (c.startRecordUpper store = .included k ∨ c.startRecordUpper store = .excluded k) ∧
      k.store = store ∧ ∀ x : RecordKey, x.store = store → c.range.belowUpper x.key = true →
        ((c.startRecordUpper store).below x = true ↔ x.key ≤ key) := by
  unfold startRecordUpper EncodedRange.belowUpper
  rw [hfloor]
  rcases c.range.upper with _ | ⟨hi, isOpen⟩
  · refine ⟨_, .inl rfl, rfl, fun x hx _ => ?_⟩
    simp [RecordKey.le_iff, hx]
  · dsimp only
    by_cases hlt : key < hi
    · rw [if_pos hlt]
      refine ⟨_, .inl rfl, rfl, fun x hx _ => ?_⟩
      simp [RecordKey.le_iff, hx]
    · rw [if_neg hlt]
      cases isOpen with
      | true =>
          refine ⟨_, .inr rfl, rfl, fun x hx hup => ?_⟩
          have hup : x.key < hi := by simpa using hup
          simp [RecordKey.lt_iff, hx, hup, (hup.trans_le (not_lt.mp hlt)).le]
      | false =>
          refine ⟨_, .inl rfl, rfl, fun x hx hup => ?_⟩
          have hup : x.key ≤ hi := by simpa using hup
          simp [RecordKey.le_iff, hx, hup, hup.trans (not_lt.mp hlt)]

theorem startRecordLower_floor {store : StoreId} {key : Bytes}
    (hfloor : c.floorRecord = some ⟨store, key⟩) :
    ∃ k, (c.startRecordLower store = .included k ∨ c.startRecordLower store = .excluded k) ∧
      k.store = store ∧ ∀ x : RecordKey, x.store = store → c.range.aboveLower x.key = true →
        ((c.startRecordLower store).above x = true ↔ key ≤ x.key) := by
  unfold startRecordLower EncodedRange.aboveLower
  rw [hfloor]
  rcases c.range.lower with _ | ⟨lo, isOpen⟩
  · dsimp only
    by_cases hlt : [] < key
    · rw [if_pos hlt]
      refine ⟨_, .inl rfl, rfl, fun x hx _ => ?_⟩
      simp [RecordKey.le_iff, hx]
    · rw [if_neg hlt]
      refine ⟨_, .inl rfl, rfl, fun x hx _ => ?_⟩
      have hnil : key = [] := le_antisymm (not_lt.mp hlt) (nil_le key)
      simp [RecordKey.le_iff, hx, hnil]
  · dsimp only
    by_cases hlt : lo < key
    · rw [if_pos hlt]
      refine ⟨_, .inl rfl, rfl, fun x hx _ => ?_⟩
      simp [RecordKey.le_iff, hx]
    · rw [if_neg hlt]
      cases isOpen with
      | false =>
          refine ⟨_, .inl rfl, rfl, fun x hx hlow => ?_⟩
          have hlow : lo ≤ x.key := by simpa using hlow
          simp [RecordKey.le_iff, hx, hlow, (not_lt.mp hlt).trans hlow]
      | true =>
          refine ⟨_, .inr rfl, rfl, fun x hx hlow => ?_⟩
          have hlow : lo < x.key := by simpa using hlow
          simp [RecordKey.lt_iff, hx, hlow, ((not_lt.mp hlt).trans_lt hlow).le]

/-- The keys of a store that a walk with a floor shows. -/
theorem store_visible_floor {store : StoreId} {key : Bytes} {x : RecordKey}
    (hfloor : c.floorRecord = some ⟨store, key⟩) (hr : c.range.contains x.key = true) :
    (c.storeWalk store).Visible .start x ↔ c.maps.mergedRecords.contains x = true ∧
      x.store = store ∧ reaches c.desc key x.key = true := by
  obtain ⟨hlow, hup⟩ := Bool.and_eq_true_iff.mp hr
  have hbound : ∃ k, ((c.storeWalk store).start = .included k ∨
      (c.storeWalk store).start = .excluded k) ∧ k.store = store ∧
      (x.store = store → ((c.storeWalk store).start.admits c.desc x = true ↔
        reaches c.desc key x.key = true)) := by
    cases hd : c.desc with
    | true =>
        obtain ⟨k, hb, hk, hadmits⟩ := startRecordUpper_floor hfloor
        refine ⟨k, by simpa [storeWalk, hd] using hb, hk, fun hx => ?_⟩
        simpa [storeWalk, hd, Bound.admits, reaches_true] using hadmits x hx hup
    | false =>
        obtain ⟨k, hb, hk, hadmits⟩ := startRecordLower_floor hfloor
        refine ⟨k, by simpa [storeWalk, hd] using hb, hk, fun hx => ?_⟩
        simpa [storeWalk, hd, Bound.admits, reaches_false] using hadmits x hx hlow
  obtain ⟨k, hb, hk, hadmits⟩ := hbound
  rw [OverlayWalk.visible_iff_of_bound (p := .start) rfl rfl hb (by simpa [storeWalk] using hk)
    (by simpa [storeWalk] using store_convex store) x]
  simp only [storeWalk, decide_eq_true_eq] at hadmits ⊢
  constructor
  · rintro ⟨hm, ha, hs⟩
    exact ⟨hm, hs, (hadmits hs).mp ha⟩
  · rintro ⟨hm, hs, ha⟩
    exact ⟨hm, (hadmits hs).mpr ha, hs⟩

theorem startIndexLower_floor {index : IndexId} {floor : IndexKey} (hindex : floor.index = index)
    (hfloor : c.floorIndex = some floor) :
    ∃ k, (c.startIndexLower index = .included k ∨ c.startIndexLower index = .excluded k) ∧
      k.index = index ∧ ∀ x : IndexKey, x.index = index → c.range.aboveLower x.key = true →
        ((c.startIndexLower index).above x = true ↔ floor ≤ x) := by
  unfold startIndexLower EncodedRange.aboveLower
  rw [hfloor]
  rcases c.range.lower with _ | ⟨lo, isOpen⟩
  · dsimp only
    by_cases hlt : [] < floor.key ∨ [] = floor.key ∧ [] < floor.primaryKey
    · rw [if_pos hlt]
      refine ⟨_, .inl rfl, hindex, fun x hx _ => ?_⟩
      simp
    · rw [if_neg hlt]
      refine ⟨_, .inl rfl, rfl, fun x hx _ => ?_⟩
      obtain ⟨hkey, hpkey⟩ := not_or.mp hlt
      have hkey : floor.key = [] := le_antisymm (not_lt.mp hkey) (nil_le _)
      have hpkey : floor.primaryKey = [] :=
        le_antisymm (not_lt.mp fun h => hpkey ⟨hkey.symm, h⟩) (nil_le _)
      have heq : floor = ⟨index, [], []⟩ := by
        cases floor
        simp only at hindex hkey hpkey
        rw [hindex, hkey, hpkey]
      simp [heq]
  · dsimp only
    by_cases hlt : lo < floor.key ∨ lo = floor.key ∧ [] < floor.primaryKey
    · rw [if_pos hlt]
      refine ⟨_, .inl rfl, hindex, fun x hx _ => ?_⟩
      simp
    · rw [if_neg hlt]
      obtain ⟨hkey, hpkey⟩ := not_or.mp hlt
      have hkey : floor.key ≤ lo := not_lt.mp hkey
      -- behind the lower bound lies only what is behind the floor
      have hbehind {x : IndexKey} (hx : x.index = index) (hlow : lo ≤ x.key) : floor ≤ x := by
        rw [IndexKey.le_iff, hindex, hx]
        refine .inr ⟨rfl, ?_⟩
        rcases (hkey.trans hlow).eq_or_lt with heq | hlt'
        · have hpkey : floor.primaryKey = [] := le_antisymm (not_lt.mp fun h =>
            hpkey ⟨le_antisymm (heq ▸ hlow) hkey, h⟩) (nil_le _)
          exact .inr ⟨heq, hpkey ▸ nil_le _⟩
        · exact .inl hlt'
      cases isOpen with
      | false =>
          refine ⟨_, .inl rfl, rfl, fun x hx hlow => ?_⟩
          have hlow : lo ≤ x.key := by simpa using hlow
          have habove : (⟨index, lo, []⟩ : IndexKey) ≤ x := by
            rw [IndexKey.le_iff]
            exact .inr ⟨hx.symm, hlow.lt_or_eq.imp id fun h => ⟨h, nil_le _⟩⟩
          simp [habove, hbehind hx hlow]
      | true =>
          refine ⟨_, .inr rfl, rfl, fun x hx hlow => ?_⟩
          have hlow : lo < x.key := by simpa using hlow
          have habove : (⟨index, lo, []⟩ : IndexKey) < x :=
            IndexKey.lt_iff.mpr (.inr ⟨hx.symm, .inl hlow⟩)
          simp [habove, hbehind hx hlow.le]

/-- The entries of an index that a walk with a floor shows. -/
theorem index_visible_floor {index : IndexId} {floor x : IndexKey} (hindex : floor.index = index)
    (hfloor : c.floorIndex = some floor) (hr : c.range.contains x.key = true) :
    (c.indexWalk index).Visible .start x ↔ c.maps.mergedIndex.contains x = true ∧
      x.index = index ∧ reaches c.desc floor x = true := by
  have hlow := (Bool.and_eq_true_iff.mp hr).1
  have hbound : ∃ k, ((c.indexWalk index).start = .included k ∨
      (c.indexWalk index).start = .excluded k) ∧ k.index = index ∧
      (x.index = index → ((c.indexWalk index).start.admits c.desc x = true ↔
        reaches c.desc floor x = true)) := by
    cases hd : c.desc with
    | true =>
        refine ⟨floor, .inl (by simp [indexWalk, hd, startIndexUpper, hfloor]), hindex,
          fun hx => ?_⟩
        simp [indexWalk, hd, startIndexUpper, hfloor, Bound.admits, reaches_true]
    | false =>
        obtain ⟨k, hb, hk, hadmits⟩ := startIndexLower_floor hindex hfloor
        refine ⟨k, by simpa [indexWalk, hd] using hb, hk, fun hx => ?_⟩
        simpa [indexWalk, hd, Bound.admits, reaches_false] using hadmits x hx hlow
  obtain ⟨k, hb, hk, hadmits⟩ := hbound
  rw [OverlayWalk.visible_iff_of_bound (p := .start) rfl rfl hb (by simpa [indexWalk] using hk)
    (by simpa [indexWalk] using index_convex index) x]
  simp only [indexWalk, decide_eq_true_eq] at hadmits ⊢
  constructor
  · rintro ⟨hm, ha, hs⟩
    exact ⟨hm, hs, (hadmits hs).mp ha⟩
  · rintro ⟨hm, hs, ha⟩
    exact ⟨hm, (hadmits hs).mpr ha, hs⟩

/-! ### Where a seek lands -/

variable {maps : CursorMaps} {src : SourceRef} {store : StoreId} {index : IndexId}
  {range : EncodedRange} {dir : Direction} {keyOnly : Bool}

theorem head?_map_filter {α β : Type} {l : List α} {f : α → β} {p : α → Bool} {q : β → Bool}
    (h : ∀ a ∈ l, p a = q (f a)) : ((l.filter p).map f).head? = (l.map f).find? q := by
  rw [List.head?_map, List.head?_filter, List.find?_map]
  congr 1
  induction l with
  | nil => rfl
  | cons a l ih =>
      rw [List.find?_cons, List.find?_cons, Function.comp, h a (by simp),
        ih fun b hb => h b (.tail _ hb)]

/-- A store cursor lands on the first row whose key is at or past the floor. -/
theorem lands_store (hc : c.Scans maps (.store store) range dir keyOnly) (key : Bytes) :
    Lands ({ c.rewound with floorRecord := some ⟨store, key⟩ }.advance)
      ((maps.rows (.store store) range dir keyOnly).find? (atOrPast dir.isPrev (.key key))) := by
  obtain ⟨hkind, rfl, rfl, hdesc, rfl⟩ := hc
  let c' : Cursor := { c.rewound with floorRecord := some ⟨store, key⟩ }
  let ks := (c.maps.storeKeys store c.range c.desc).filter fun k => reaches c.desc key k.key
  have hmem (k : RecordKey) : k ∈ ks ↔ (c'.storeWalk store).Visible .start k ∧
      c'.rangeVerdict k.key = .take := by
    rw [List.mem_filter, mem_storeKeys, rangeVerdict_take_iff]
    constructor
    · rintro ⟨⟨hm, hs, hr⟩, hreach⟩
      exact ⟨(store_visible_floor (c := c') rfl hr).mpr ⟨hm, hs, hreach⟩, hr⟩
    · rintro ⟨hvis, hr⟩
      obtain ⟨hm, hs, hreach⟩ := (store_visible_floor (c := c') rfl hr).mp hvis
      exact ⟨⟨hm, hs, hr⟩, hreach⟩
  have henum : c'.Enumerates (ks.map (c.maps.storeRow c.keyOnly)) :=
    enumerates_store (c := c') hkind rfl ks ((storeKeys_pairwise c.maps store c.range _).filter _)
      hmem
  show Lands c'.advance _
  have hhead : (ks.map (c.maps.storeRow c.keyOnly)).head? =
      ((c.maps.storeKeys store c.range c.desc).map (c.maps.storeRow c.keyOnly)).find?
        (atOrPast c.desc (.key key)) := head?_map_filter fun k _ => rfl
  rw [rows, ← hdesc, ← hhead]
  exact henum.lands

/-- The smallest entries of the groups from a floor on. -/
theorem uniqueTargets_floor {c : Cursor} {key : Bytes}
    (hpos : c.indexPos = .start) (hlast : c.lastIndexKey = none)
    (hfloor : c.floorIndex = some ⟨index, key, []⟩) :
    c.UniqueTargets index ((groupMins (c.maps.indexKeys index c.range c.desc)).filter
      fun k => reaches c.desc ⟨index, key, []⟩ k) := by
  have hin {t : IndexKey} (ht : t ∈ (groupMins (c.maps.indexKeys index c.range c.desc)).filter
      fun k => reaches c.desc ⟨index, key, []⟩ k) := mem_groupMins.mp (List.mem_filter.mp ht).1
  constructor
  case sorted => exact (groupMins_pairwise c.maps index c.range c.desc).filter _
  case inRange =>
      intro t ht
      exact mem_indexKeys.mp (hin ht).1
  case least =>
      intro t ht k hk hki hkey
      refine (hin ht).2 k (mem_indexKeys.mpr ⟨hk, hki, ?_⟩) hkey
      rw [hkey]
      exact (mem_indexKeys.mp (hin ht).1).2.2
  case complete =>
      intro t ht k hk hb
      obtain ⟨t', ht', hkey⟩ := exists_groupMin (mem_indexKeys.mpr hk)
      have hti := (mem_indexKeys.mp (hin ht).1).2.1
      have hti' := (mem_indexKeys.mp (mem_groupMins.mp ht').1).2.1
      refine ⟨t', List.mem_filter.mpr ⟨ht', ?_⟩, hkey⟩
      exact reaches_trans (List.mem_filter.mp ht).2
        ((ahead_indexKey (hti.trans hti'.symm)).mpr (.inl (by rwa [hkey])))
  case covers =>
      intro k hvis hr
      rw [hpos] at hvis
      obtain ⟨hm, hki, hreach⟩ := (index_visible_floor rfl hfloor hr).mp hvis
      obtain ⟨t, ht, hkey⟩ := exists_groupMin (mem_indexKeys.mpr ⟨hm, hki, hr⟩)
      obtain ⟨hti, htmin⟩ := mem_groupMins.mp ht
      refine .inr ⟨t, List.mem_filter.mpr ⟨ht, ?_⟩, hkey⟩
      -- the smallest of the group is reached with any other of it
      rw [reaches_indexKey (mem_indexKeys.mp hti).2.1.symm, hkey]
      rcases (reaches_indexKey hki.symm).mp hreach with h | ⟨h, hp⟩
      · exact .inl h
      · refine .inr ⟨h, ?_⟩
        cases hd : c.desc with
        | false => exact reaches_false.mpr (nil_le _)
        | true =>
            rw [hd, reaches_true] at hp
            exact reaches_true.mpr
              ((htmin k (mem_indexKeys.mpr ⟨hm, hki, hr⟩) hkey.symm).trans hp)
  case last =>
      intro l hl
      rw [hlast] at hl
      cases hl

/-- An index cursor lands on the first row that is at or past the floor as a pair. -/
theorem lands_index (hc : c.Scans maps (.index store index) range dir keyOnly) (key pkey : Bytes)
    (hpkey : dir.isUnique = true → pkey = []) :
    Lands ({ c.rewound with floorIndex := some ⟨index, key, pkey⟩ }.advance)
      ((maps.rows (.index store index) range dir keyOnly).find?
        (atOrPast dir.isPrev (.keyAndPrimaryKey key pkey))) := by
  obtain ⟨hkind, rfl, rfl, hdesc, rfl⟩ := hc
  let c' : Cursor := { c.rewound with floorIndex := some ⟨index, key, pkey⟩ }
  let entries := c.maps.indexKeys index c.range c.desc
  have hvisible {k : IndexKey} (hr : c.range.contains k.key = true) :
      (c'.indexWalk index).Visible .start k ↔ c.maps.mergedIndex.contains k = true ∧
        k.index = index ∧ reaches c.desc ⟨index, key, pkey⟩ k = true :=
    index_visible_floor (c := c') rfl rfl hr
  -- the first entry that the floor lets through is the first one at or past the target
  have hhead (l : List IndexKey) (hl : ∀ k ∈ l, k.index = index) :
      ((l.filter fun k => reaches c.desc ⟨index, key, pkey⟩ k).map
        (c.maps.indexRow store c.keyOnly)).head? =
        (l.map (c.maps.indexRow store c.keyOnly)).find?
          (atOrPast c.desc (.keyAndPrimaryKey key pkey)) := by
    refine head?_map_filter fun k hk => Bool.eq_iff_iff.mpr ?_
    rw [reaches_indexKey (hl k hk).symm, atOrPast, Bool.or_eq_true, Bool.and_eq_true,
      decide_eq_true_eq]
    rfl
  show Lands c'.advance _
  rw [rows, ← hdesc]
  -- a unique direction shows the least member of every group
  cases hu : dir.isUnique with
  | false =>
      have hkind' : c'.kind = .index store index false :=
        hkind.trans (by simp [scan, openIndex, «open», hu])
      have hmem (k : IndexKey) : k ∈ entries.filter (fun k => reaches c.desc ⟨index, key, pkey⟩ k) ↔
          (c'.indexWalk index).Visible .start k ∧ c'.indexVerdict false k.key = .take := by
        rw [List.mem_filter, mem_indexKeys, indexVerdict_take_iff]
        constructor
        · rintro ⟨⟨hm, hi, hr⟩, hreach⟩
          exact ⟨(hvisible hr).mpr ⟨hm, hi, hreach⟩, hr, by simp⟩
        · rintro ⟨hvis, hr, -⟩
          obtain ⟨hm, hi, hreach⟩ := (hvisible hr).mp hvis
          exact ⟨⟨hm, hi, hr⟩, hreach⟩
      have henum := enumerates_index (c := c') hkind' rfl _
        ((indexKeys_pairwise c.maps index c.range _).filter _) hmem
      show Lands c'.advance ((entries.map _).find? _)
      rw [← hhead entries fun k hk => (mem_indexKeys.mp hk).2.1]
      exact henum.lands
  | true =>
      obtain rfl := hpkey hu
      have hkind' : c'.kind = .index store index true :=
        hkind.trans (by simp [scan, openIndex, «open», hu])
      have hin {t : IndexKey} (ht : t ∈ groupMins entries) :=
        mem_indexKeys.mp (mem_groupMins.mp ht).1
      have henum := enumerates_unique (c := c') hkind' rfl _ (uniqueTargets_floor rfl rfl rfl)
        fun t ht => by
          obtain ⟨ht, hreach⟩ := List.mem_filter.mp ht
          obtain ⟨hm, hi, hr⟩ := hin ht
          exact (hvisible hr).mpr ⟨hm, hi, hreach⟩
      show Lands c'.advance (((groupMins entries).map _).find? _)
      rw [← hhead (groupMins entries) fun k hk => (hin hk).2.1]
      exact henum.lands

/-! ### When that is the first row at or past the target -/

/-- The order in which a walk meets rows. -/
def RowAhead (desc : Bool) (r r' : Bytes × Bytes × Option Bytes) : Prop :=
  ahead desc r.1 r'.1 = true ∨ r.1 = r'.1 ∧ ahead desc r.2.1 r'.2.1 = true

theorem rows_pairwise (maps : CursorMaps) (src : SourceRef) (range : EncodedRange)
    (dir : Direction) (keyOnly : Bool) :
    (maps.rows src range dir keyOnly).Pairwise (RowAhead dir.isPrev) := by
  cases src with
  | store store =>
      rw [rows, List.pairwise_map]
      refine (storeKeys_pairwise maps store range _).imp_of_mem fun {a b} ha hb hab => .inl ?_
      rwa [ahead_recordKey ((mem_storeKeys.mp ha).2.1.trans (mem_storeKeys.mp hb).2.1.symm)] at hab
  | index store index =>
      have hentries : (maps.indexKeys index range dir.isPrev).Pairwise fun a b =>
          RowAhead dir.isPrev (maps.indexRow store keyOnly a) (maps.indexRow store keyOnly b) :=
        (indexKeys_pairwise maps index range _).imp_of_mem fun {a b} ha hb hab =>
          (ahead_indexKey ((mem_indexKeys.mp ha).2.1.trans (mem_indexKeys.mp hb).2.1.symm)).mp hab
      rw [rows, List.pairwise_map]
      cases dir.isUnique with
      | true => exact hentries.filter _
      | false => exact hentries

/-- A match of a sorted list is the first one or lies behind it. -/
theorem eq_or_rel_of_find? {α : Type} {l : List α} {R : α → α → Prop} {p : α → Bool} {a b : α}
    (hl : l.Pairwise R) (h : l.find? p = some a) (hb : b ∈ l) (hp : p b = true) :
    b = a ∨ R a b := by
  obtain ⟨-, pre, post, rfl, hpre⟩ := List.find?_eq_some_iff_append.mp h
  rcases List.mem_append.mp hb with hb | hb
  · have := hpre b hb
    simp [hp] at this
  · rcases List.mem_cons.mp hb with rfl | hb
    · exact .inl rfl
    · exact .inr ((List.pairwise_cons.mp (List.pairwise_append.mp hl).2.1).1 b hb)

theorem find?_congr {α : Type} {l : List α} {p q : α → Bool} (h : ∀ a ∈ l, p a = q a) :
    l.find? p = l.find? q := by
  rw [← List.head?_filter, ← List.head?_filter, List.filter_congr h]

/-- A floor with an empty primary key, and the key alone. -/
theorem find?_key_iff {l : List (Bytes × Bytes × Option Bytes)} {desc : Bool} {key : Bytes}
    (hl : l.Pairwise (RowAhead desc)) :
    l.find? (atOrPast desc (.keyAndPrimaryKey key [])) = l.find? (atOrPast desc (.key key)) ↔
      (desc = true → ∀ r ∈ l, r.1 = key → r.2.1 = []) := by
  constructor
  · rintro h rfl r hr rfl
    have hfound : atOrPast true (.key r.1) r = true := reaches_iff.mpr (.inl rfl)
    obtain ⟨r₀, hr₀⟩ := Option.isSome_iff_exists.mp (List.find?_isSome.mpr ⟨r, hr, hfound⟩)
    have hfloor : atOrPast true (.keyAndPrimaryKey r.1 []) r₀ = true :=
      List.find?_some (h.trans hr₀)
    simp only [atOrPast, Bool.or_eq_true, Bool.and_eq_true, decide_eq_true_eq, reaches_true,
      ahead, if_true] at hfloor
    rcases eq_or_rel_of_find? hl hr₀ hr hfound with rfl | hahead | ⟨heq, hahead⟩
    · rcases hfloor with hlt | ⟨-, hle⟩
      · exact absurd hlt (lt_irrefl _)
      · exact le_antisymm hle (nil_le _)
    · simp only [ahead, if_true, decide_eq_true_eq] at hahead
      rcases hfloor with hlt | ⟨heq, -⟩
      · exact absurd (hlt.trans hahead) (lt_irrefl _)
      · exact absurd hahead (heq ▸ lt_irrefl _)
    · simp only [ahead, if_true, decide_eq_true_eq] at hahead
      rcases hfloor with hlt | ⟨-, hle⟩
      · exact absurd hlt (heq ▸ lt_irrefl _)
      · exact absurd (hahead.trans_le hle) (not_lt.mpr (nil_le _))
  · intro h
    refine find?_congr fun r hr => Bool.eq_iff_iff.mpr ?_
    simp only [atOrPast, Bool.or_eq_true, Bool.and_eq_true, decide_eq_true_eq]
    rw [@reaches_iff _ _ desc key r.1]
    constructor
    · rintro (hk | ⟨hk, -⟩)
      · exact .inr hk
      · exact .inl hk
    · rintro (hk | hk)
      · refine .inr ⟨hk, ?_⟩
        cases desc with
        | false => exact reaches_false.mpr (nil_le _)
        | true => exact reaches_true.mpr (h rfl r hr hk.symm).le
      · exact .inl hk

/-- A floor of keys, and a target with a primary key, over rows whose keys are primary keys. -/
theorem find?_pkey_iff {l : List (Bytes × Bytes × Option Bytes)} {desc : Bool} {key pkey : Bytes}
    (hl : l.Pairwise (RowAhead desc)) (hkeys : ∀ r ∈ l, r.2.1 = r.1) :
    l.find? (atOrPast desc (.key key)) = l.find? (atOrPast desc (.keyAndPrimaryKey key pkey)) ↔
      ∀ r ∈ l, r.1 = key → reaches desc pkey r.2.1 = true := by
  constructor
  · rintro h r hr rfl
    have hfound : atOrPast desc (.key r.1) r = true := reaches_iff.mpr (.inl rfl)
    obtain ⟨r₀, hr₀⟩ := Option.isSome_iff_exists.mp (List.find?_isSome.mpr ⟨r, hr, hfound⟩)
    have hfirst : atOrPast desc (.key r.1) r₀ = true := List.find?_some hr₀
    have htarget : atOrPast desc (.keyAndPrimaryKey r.1 pkey) r₀ = true :=
      List.find?_some (h.symm.trans hr₀)
    have heq : r = r₀ := by
      rcases eq_or_rel_of_find? hl hr₀ hr hfound with heq | hahead | ⟨hk, hahead⟩
      · exact heq
      · rcases reaches_iff.mp hfirst with hk | hk
        · rw [hk, ahead_irrefl] at hahead
          cases hahead
        · have := ahead_trans hk hahead
          simp [ahead_irrefl] at this
      · rw [hkeys r hr, hkeys r₀ (List.mem_of_find?_eq_some hr₀), hk, ahead_irrefl] at hahead
        cases hahead
    subst heq
    simpa [atOrPast, ahead_irrefl] using htarget
  · intro h
    refine find?_congr fun r hr => Bool.eq_iff_iff.mpr ?_
    simp only [atOrPast, Bool.or_eq_true, Bool.and_eq_true, decide_eq_true_eq]
    rw [reaches_iff]
    constructor
    · rintro (hk | hk)
      · exact .inr ⟨hk, h r hr hk.symm⟩
      · exact .inl hk
    · rintro (hk | ⟨hk, -⟩)
      · exact .inr hk
      · exact .inl hk

/-- A seek lands on the first row at or past its floor. -/
theorem seek_lands (hc : c.Scans maps src range dir keyOnly) {target : CursorSeek}
    (htarget : target.Addresses dir) :
    Lands (c.seek target) (maps.firstAtOrPast src range dir keyOnly (target.floor src)) := by
  unfold seek CursorSeek.floor CursorMaps.firstAtOrPast
  cases src with
  | store store =>
      have hkind : c.kind = .store store := hc.kind
      cases target with
      | first => exact htarget.elim
      | key key | keyAndPrimaryKey key pkey =>
          simp only [hkind]
          exact lands_store hc key
  | index store index =>
      have hkind : c.kind = .index store index dir.isUnique := hc.kind
      cases target with
      | first => exact htarget.elim
      | key key =>
          simp only [hkind]
          exact lands_index hc key [] fun _ => rfl
      | keyAndPrimaryKey key pkey =>
          simp only [hkind]
          exact lands_index hc key pkey fun hu => Bool.noConfusion (htarget.symm.trans hu)

/-- When that is the first row at or past the target. -/
theorem seek_lands_iff (hc : c.Scans maps src range dir keyOnly) {target : CursorSeek}
    (htarget : target.Addresses dir) :
    Lands (c.seek target) (maps.firstAtOrPast src range dir keyOnly target) ↔
      maps.FloorExact src range dir keyOnly target := by
  have hrows := rows_pairwise maps src range dir keyOnly
  have hlands := seek_lands hc htarget
  have hiff : Lands (c.seek target) (maps.firstAtOrPast src range dir keyOnly target) ↔
      maps.firstAtOrPast src range dir keyOnly (target.floor src) =
        maps.firstAtOrPast src range dir keyOnly target :=
    ⟨hlands.unique, fun heq => heq ▸ hlands⟩
  rw [hiff]
  cases target with
  | first => exact htarget.elim
  | key key =>
      cases src with
      | store store => exact ⟨fun _ _ _ hsrc => (nomatch hsrc), fun _ => rfl⟩
      | index store index =>
          exact (find?_key_iff hrows).trans ⟨fun h _ _ _ => h, fun h => h store index rfl⟩
  | keyAndPrimaryKey key pkey =>
      cases src with
      | store store =>
          refine (find?_pkey_iff hrows fun r hr => ?_).trans ⟨fun h _ _ => h, fun h => h store rfl⟩
          obtain ⟨k, -, rfl⟩ := List.mem_map.mp hr
          rfl
      | index store index => exact ⟨fun _ _ hsrc => (nomatch hsrc), fun _ => rfl⟩

end Cursor

end BoaIdb
