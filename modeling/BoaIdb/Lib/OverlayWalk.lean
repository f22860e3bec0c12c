import BoaIdb.Lib.OrderedMap
import Mathlib.Data.List.Perm.Subperm
import Mathlib.Data.List.TakeWhile

/-!
Walking a map through an overlay.

The merged map is what a reader of a base map under an overlay should see; a walk
reaches it without building it, by peeking at the next entry of each map and taking
the nearer one. The two sources are only ever seen through the entries that
*remain*: those the current bound admits, cut off at the first one outside the part
of the key space being walked.
-/

namespace OrdMap

variable {K VB VO : Type*} [LinearOrder K]

/-! ### The size of the merged map -/

theorem OrderedMap.size_merge_le (slot : VO → Option VB) (base : OrderedMap K VB)
    (overlay : OrderedMap K VO) : (base.merge slot overlay).size ≤ base.size + overlay.size := by
  have hnodup : (base.merge slot overlay).keys.Nodup :=
    (base.merge slot overlay).keys_sorted.imp fun hab => hab.ne
  have hsub : (base.merge slot overlay).keys ⊆ base.keys ++ overlay.keys := by
    intro k hk
    obtain ⟨v, hv⟩ := mem_keys_iff.mp hk
    rw [get?_merge] at hv
    rw [List.mem_append, mem_keys_iff, mem_keys_iff]
    cases hget : overlay.get? k with
    | some o => exact .inr ⟨o, rfl⟩
    | none =>
        rw [hget] at hv
        exact .inl ⟨v, hv⟩
  have hlen := (List.subperm_of_subset hnodup hsub).length_le
  simpa [keys, size] using hlen

/-! ### Directions

`ahead desc a b` says that a walk meets `b` after `a`. -/

def ahead (desc : Bool) (a b : K) : Bool :=
  if desc then b < a else a < b

def Bound.admits (b : Bound K) (desc : Bool) (k : K) : Bool :=
  if desc then b.below k else b.above k

namespace OrderedMap

/-- The entries in the order a walk meets them. -/
def ordered (m : OrderedMap K VB) (desc : Bool) : List (K × VB) :=
  if desc then m.entries.reverse else m.entries

/-- The next entry the bound admits, unless it lies outside the walked part. -/
def peek (m : OrderedMap K VB) (desc : Bool) (b : Bound K) (inside : K → Bool) : Option (K × VB) :=
  (if desc then m.lastUpTo b else m.firstFrom b).filter (fun e => inside e.1)

/-- The entries successive peeks will meet. -/
def remaining (m : OrderedMap K VB) (desc : Bool) (b : Bound K) (inside : K → Bool) :
    List (K × VB) :=
  ((m.ordered desc).filter (fun e => b.admits desc e.1)).takeWhile (fun e => inside e.1)

end OrderedMap

theorem ahead_iff {desc : Bool} {a b : K} :
    ahead desc a b = true ↔ (desc = true ∧ b < a) ∨ (desc = false ∧ a < b) := by
  cases desc <;> simp [ahead]

theorem ahead_irrefl (desc : Bool) (a : K) : ahead desc a a = false := by
  cases desc <;> simp [ahead]

theorem ahead_trans {desc : Bool} {a b c : K} (hab : ahead desc a b = true)
    (hbc : ahead desc b c = true) : ahead desc a c = true := by
  cases desc with
  | true =>
      simp only [ahead, if_true, decide_eq_true_eq] at *
      exact hbc.trans hab
  | false =>
      simp only [ahead, Bool.false_eq_true, if_false, decide_eq_true_eq] at *
      exact hab.trans hbc

theorem ahead_trichotomy (desc : Bool) (a b : K) :
    ahead desc a b = true ∨ a = b ∨ ahead desc b a = true := by
  cases desc with
  | true =>
      rcases lt_trichotomy b a with h | h | h
      · exact .inl (by simpa [ahead] using h)
      · exact .inr (.inl h.symm)
      · exact .inr (.inr (by simpa [ahead] using h))
  | false => simpa [ahead] using lt_trichotomy a b

theorem admits_excluded (desc : Bool) (k x : K) :
    (Bound.excluded k).admits desc x = ahead desc k x := by
  cases desc <;> rfl

theorem admits_included (desc : Bool) (k x : K) :
    (Bound.included k).admits desc x = true ↔ k = x ∨ ahead desc k x = true := by
  cases desc with
  | true =>
      simp only [Bound.admits, ahead, if_true, Bound.below_included, decide_eq_true_eq]
      rw [le_iff_eq_or_lt, eq_comm]
  | false =>
      simp only [Bound.admits, ahead, Bool.false_eq_true, if_false, Bound.above_included,
        decide_eq_true_eq]
      exact le_iff_eq_or_lt

/-- Whatever a bound admits, it admits everything behind it in the walk. -/
theorem admits_of_ahead {b : Bound K} {desc : Bool} {x y : K} (hx : b.admits desc x = true)
    (hxy : ahead desc x y = true) : b.admits desc y = true := by
  cases b with
  | unbounded => cases desc <;> rfl
  | excluded k =>
      rw [admits_excluded] at *
      exact ahead_trans hx hxy
  | included k =>
      rw [admits_included] at *
      rcases hx with rfl | hx
      · exact .inr hxy
      · exact .inr (ahead_trans hx hxy)

/-! ### Lists in walk order -/

namespace OrderedMap

theorem ordered_pairwise (m : OrderedMap K VB) (desc : Bool) :
    (m.ordered desc).Pairwise (fun a b => ahead desc a.1 b.1 = true) := by
  cases desc with
  | true => simpa [ordered, ahead, List.pairwise_reverse] using m.sorted
  | false => simpa [ordered, ahead] using m.sorted

@[simp] theorem mem_ordered {m : OrderedMap K VB} {desc : Bool} {e : K × VB} :
    e ∈ m.ordered desc ↔ e ∈ m.entries := by
  cases desc <;> simp [ordered]

theorem peek_eq_head? (m : OrderedMap K VB) (desc : Bool) (b : Bound K) (inside : K → Bool) :
    m.peek desc b inside = (m.remaining desc b inside).head? := by
  have hhead (l : List (K × VB)) (p : K × VB → Bool) :
      (l.takeWhile p).head? = l.head?.filter p := by
    cases l with
    | nil => rfl
    | cons x xs => cases hx : p x <;> simp [hx, Option.filter]
  rw [peek, remaining, hhead]
  cases desc with
  | true => simp only [if_true, lastUpTo_eq, ordered, Bound.admits, List.filter_reverse]
  | false => simp only [Bool.false_eq_true, if_false, firstFrom_eq, ordered, Bound.admits]

theorem remaining_pairwise (m : OrderedMap K VB) (desc : Bool) (b : Bound K) (inside : K → Bool) :
    (m.remaining desc b inside).Pairwise (fun a b => ahead desc a.1 b.1 = true) :=
  ((m.ordered_pairwise desc).filter _).sublist (List.takeWhile_sublist _)

theorem mem_entries_of_mem_remaining {m : OrderedMap K VB} {desc : Bool} {b : Bound K}
    {inside : K → Bool} {e : K × VB} (h : e ∈ m.remaining desc b inside) :
    e ∈ m.entries ∧ inside e.1 = true := by
  have hmem := (List.takeWhile_sublist _).subset h
  exact ⟨mem_ordered.mp (List.mem_filter.mp hmem).1,
    List.mem_takeWhile_imp (p := fun e : K × VB => inside e.1) h⟩

theorem length_remaining_le (m : OrderedMap K VB) (desc : Bool) (b : Bound K)
    (inside : K → Bool) : (m.remaining desc b inside).length ≤ m.size := by
  calc (m.remaining desc b inside).length
      ≤ ((m.ordered desc).filter (fun e => b.admits desc e.1)).length :=
        (List.takeWhile_sublist _).length_le
    _ ≤ (m.ordered desc).length := List.length_filter_le _ _
    _ = m.size := by
      unfold ordered size
      split <;> simp

/-- Once the walk has passed the next entry, the others remain. -/
theorem remaining_excluded {m : OrderedMap K VB} {desc : Bool} {b : Bound K} {inside : K → Bool}
    {e : K × VB} {es : List (K × VB)} (h : m.remaining desc b inside = e :: es) :
    m.remaining desc (.excluded e.1) inside = es := by
  have hsorted := (m.ordered_pairwise desc).filter (fun e => b.admits desc e.1)
  unfold remaining at h ⊢
  have hfilter : (m.ordered desc).filter (fun x => (Bound.excluded e.1).admits desc x.1) =
      ((m.ordered desc).filter (fun x => b.admits desc x.1)).filter
        (fun x => ahead desc e.1 x.1) := by
    rw [List.filter_filter]
    refine List.filter_congr fun x _ => ?_
    have he : b.admits desc e.1 = true := by
      have : e ∈ (m.ordered desc).filter (fun x => b.admits desc x.1) :=
        (List.takeWhile_sublist _).subset (h ▸ List.mem_cons_self)
      exact (List.mem_filter.mp this).2
    rw [admits_excluded, Bool.eq_iff_iff, Bool.and_eq_true]
    exact ⟨fun hx => ⟨hx, admits_of_ahead he hx⟩, And.left⟩
  rw [hfilter]
  cases hl : (m.ordered desc).filter (fun x => b.admits desc x.1) with
  | nil => simp [hl] at h
  | cons x xs =>
      rw [hl] at h hsorted
      cases hx : inside x.1 with
      | false => simp [hx] at h
      | true =>
          rw [List.takeWhile_cons_of_pos (by simpa using hx)] at h
          obtain ⟨rfl, rfl⟩ := List.cons.inj h
          have hkeep : xs.filter (fun y => ahead desc x.1 y.1) = xs :=
            List.filter_eq_self.mpr (List.pairwise_cons.mp hsorted).1
          simp [ahead_irrefl, hkeep]

/-! ### When nothing is cut off -/

theorem takeWhile_eq_filter {α : Type*} {l : List α} {p : α → Bool} {r : α → α → Prop}
    (hs : l.Pairwise r) (h : ∀ x ∈ l, ∀ y ∈ l, p x = false → p y = true → ¬ r x y) :
    l.takeWhile p = l.filter p := by
  induction l with
  | nil => rfl
  | cons x xs ih =>
      obtain ⟨hx, hxs⟩ := List.pairwise_cons.mp hs
      have ih := ih hxs fun a ha b hb => h a (.tail _ ha) b (.tail _ hb)
      cases hp : p x with
      | true => simp [hp, ih]
      | false =>
          have hnone : xs.filter p = [] := by
            rw [List.filter_eq_nil_iff]
            intro y hy hpy
            exact h x (by simp) y (.tail _ hy) hp hpy (hx y hy)
          simp [hp, hnone]

/-- What lies at or behind a place of a sorted list is its end from there. -/
theorem filter_eq_drop {α : Type*} {l : List α} {p : α → Bool} {r : α → α → Prop} {i : ℕ} {x : α}
    (hs : l.Pairwise r) (hx : l[i]? = some x) (hbefore : ∀ y, r y x → p y = false)
    (hafter : ∀ y, r x y → p y = true) :
    l.filter p = l.drop (if p x then i else i + 1) := by
  induction l generalizing i with
  | nil => cases hx
  | cons a l ih =>
      obtain ⟨ha, hs⟩ := List.pairwise_cons.mp hs
      cases i with
      | zero =>
          obtain rfl := Option.some.inj hx
          have hall : l.filter p = l := List.filter_eq_self.mpr fun y hy => hafter y (ha y hy)
          cases hp : p a with
          | true => rw [List.filter_cons_of_pos hp, hall, if_pos rfl, List.drop_zero]
          | false =>
              rw [List.filter_cons_of_neg (Bool.eq_false_iff.mp hp), hall,
                if_neg Bool.false_ne_true]
              rfl
      | succ i =>
          have hx : l[i]? = some x := hx
          have hfalse := hbefore a (ha x (List.mem_of_getElem? hx))
          rw [List.filter_cons_of_neg (Bool.eq_false_iff.mp hfalse), ih hs hx]
          split_ifs
          · rfl
          · rfl

/-- The walked part is convex: whatever lies between two of its keys belongs to it. -/
def Convex (inside : K → Bool) : Prop :=
  ∀ x y z, inside x = true → inside z = true → x < y → y < z → inside y = true

theorem Convex.ahead {inside : K → Bool} (h : Convex inside) {desc : Bool} {x y z : K}
    (hx : inside x = true) (hz : inside z = true) (hxy : ahead desc x y = true)
    (hyz : ahead desc y z = true) : inside y = true := by
  rcases ahead_iff.mp hxy with ⟨hd, hxy⟩ | ⟨hd, hxy⟩ <;>
    rcases ahead_iff.mp hyz with ⟨hd', hyz⟩ | ⟨hd', hyz⟩
  · exact h z y x hz hx hyz hxy
  · simp [hd] at hd'
  · simp [hd] at hd'
  · exact h x y z hx hz hxy hyz

/-- A walk that starts at a key of its own part meets everything of that part
the bound admits. -/
theorem mem_remaining_of_inside {m : OrderedMap K VB} {desc : Bool} {b : Bound K} {k : K}
    {inside : K → Bool} (hb : b = .included k ∨ b = .excluded k) (hk : inside k = true)
    (hconv : Convex inside) {e : K × VB} :
    e ∈ m.remaining desc b inside ↔
      e ∈ m.entries ∧ b.admits desc e.1 = true ∧ inside e.1 = true := by
  have hfrom {x : K} (hx : b.admits desc x = true) : k = x ∨ OrdMap.ahead desc k x = true := by
    rcases hb with rfl | rfl
    · exact (admits_included desc k x).mp hx
    · exact .inr (admits_excluded desc k x ▸ hx)
  have hfilter := takeWhile_eq_filter (p := fun e : K × VB => inside e.1)
    ((m.ordered_pairwise desc).filter (fun e => b.admits desc e.1)) (by
      intro x hx y _ hpx hpy hxy
      rcases hfrom (List.mem_filter.mp hx).2 with rfl | hkx
      · simp [hk] at hpx
      · simp [hconv.ahead hk hpy hkx hxy] at hpx)
  rw [remaining, hfilter, List.mem_filter, List.mem_filter, mem_ordered, and_assoc]

/-- A walk with no bound meets its whole part when no foreign entry comes first. -/
theorem mem_remaining_unbounded {m : OrderedMap K VB} {desc : Bool} {inside : K → Bool}
    (h : ∀ e ∈ m.entries, inside e.1 = true ∨ ∀ y, inside y = true → OrdMap.ahead desc y e.1 = true)
    {e : K × VB} :
    e ∈ m.remaining desc .unbounded inside ↔ e ∈ m.entries ∧ inside e.1 = true := by
  have hall : (m.ordered desc).filter (fun e => (Bound.unbounded : Bound K).admits desc e.1) =
      m.ordered desc := List.filter_eq_self.mpr fun e _ => by cases desc <;> rfl
  have hfilter := takeWhile_eq_filter (p := fun e : K × VB => inside e.1)
    (m.ordered_pairwise desc) (by
      intro x hx y _ hpx hpy hxy
      rcases h x (mem_ordered.mp hx) with hin | hbehind
      · simp [hin] at hpx
      · have := ahead_trans hxy (hbehind y.1 hpy)
        simp [ahead_irrefl] at this)
  rw [remaining, hall, hfilter]
  simp

/-- A foreign entry that comes first hides the whole part from a walk with no
bound. -/
theorem remaining_unbounded_eq_nil {m : OrderedMap K VB} {desc : Bool} {inside : K → Bool}
    {e : K × VB} (he : e ∈ m.entries)
    (hbefore : ∀ y, inside y = true → OrdMap.ahead desc e.1 y = true) :
    m.remaining desc .unbounded inside = [] := by
  have hall : (m.ordered desc).filter (fun e => (Bound.unbounded : Bound K).admits desc e.1) =
      m.ordered desc := List.filter_eq_self.mpr fun e _ => by cases desc <;> rfl
  have hs := m.ordered_pairwise desc
  have he : e ∈ m.ordered desc := mem_ordered.mpr he
  rw [remaining, hall]
  cases hl : m.ordered desc with
  | nil => rfl
  | cons x xs =>
      rw [hl] at hs he
      have hx : inside x.1 = false := by
        by_contra hin
        have hex := hbefore x.1 (by simpa using hin)
        rcases List.mem_cons.mp he with rfl | he
        · simp [ahead_irrefl] at hex
        · have := ahead_trans hex ((List.pairwise_cons.mp hs).1 e he)
          simp [ahead_irrefl] at this
      simp [hx]

end OrderedMap

/-! ### The walk

One call of `advance` peeks at both sources, takes the nearer entry (on a tie
the overlay's, passing both), and keeps going over tombstones and over entries
the caller's verdict skips. -/

/-- What to do with an entry that is not a tombstone. -/
inductive Verdict
  | skip
  | stop
  | take
  deriving DecidableEq

/-- The last entry passed on each source. -/
structure Positions (K : Type*) where
  base : Option K
  overlay : Option K
  deriving DecidableEq

/-- No entry passed yet. -/
def Positions.start : Positions K := ⟨none, none⟩

/-- Where a source resumes: just behind its position, or at the start bound. -/
def resume (pos : Option K) (start : Bound K) : Bound K :=
  match pos with
  | some k => .excluded k
  | none => start

structure OverlayWalk (K VB VO : Type*) [LinearOrder K] where
  base : OrderedMap K VB
  overlay : OrderedMap K VO
  /-- The value an overlay entry gives its key; `none` is a tombstone. -/
  slot : VO → Option VB
  desc : Bool
  start : Bound K
  inside : K → Bool

/-- An examined entry, with the positions once it has been passed. -/
structure Pick (K VO : Type*) where
  key : K
  /-- The overlay's entry for the key, when the pick comes from there. -/
  slot : Option VO
  tombstoned : Bool
  passed : Positions K

namespace OverlayWalk

def peekBase (w : OverlayWalk K VB VO) (pos : Positions K) : Option (K × VB) :=
  w.base.peek w.desc (resume pos.base w.start) w.inside

def peekOverlay (w : OverlayWalk K VB VO) (pos : Positions K) : Option (K × VO) :=
  w.overlay.peek w.desc (resume pos.overlay w.start) w.inside

/-- The overlay holds a tombstone for this key. -/
def tombstoned (w : OverlayWalk K VB VO) (k : K) : Bool :=
  (w.overlay.get? k).any (fun o => (w.slot o).isNone)

def pick (w : OverlayWalk K VB VO) (pos : Positions K) : Option (Pick K VO) :=
  match w.peekBase pos, w.peekOverlay pos with
  | none, none => none
  | some b, none => some ⟨b.1, none, w.tombstoned b.1, { pos with base := some b.1 }⟩
  | none, some o => some ⟨o.1, some o.2, (w.slot o.2).isNone, { pos with overlay := some o.1 }⟩
  | some b, some o =>
      if ahead w.desc o.1 b.1 then
        some ⟨o.1, some o.2, (w.slot o.2).isNone, { pos with overlay := some o.1 }⟩
      else if o.1 = b.1 then
        some ⟨o.1, some o.2, (w.slot o.2).isNone, ⟨some b.1, some o.1⟩⟩
      else some ⟨b.1, none, w.tombstoned b.1, { pos with base := some b.1 }⟩

/-- Walks to the next entry the verdict takes. `none` means the fuel ran out. -/
def advance (w : OverlayWalk K VB VO) (verdict : K → Verdict) :
    ℕ → Positions K → Option (Positions K × Option (K × Option VO))
  | 0, _ => none
  | fuel + 1, pos =>
      match w.pick pos with
      | none => some (pos, none)
      | some p =>
          if p.tombstoned then advance w verdict fuel p.passed
          else match verdict p.key with
            | .skip => advance w verdict fuel p.passed
            | .stop => some (p.passed, none)
            | .take => some (p.passed, some (p.key, p.slot))

/-! ### What a walk can still see -/

def restBase (w : OverlayWalk K VB VO) (pos : Positions K) : List (K × VB) :=
  w.base.remaining w.desc (resume pos.base w.start) w.inside

def restOverlay (w : OverlayWalk K VB VO) (pos : Positions K) : List (K × VO) :=
  w.overlay.remaining w.desc (resume pos.overlay w.start) w.inside

/-- A merged key that at least one source still has ahead. -/
def Visible (w : OverlayWalk K VB VO) (pos : Positions K) (k : K) : Prop :=
  (∃ v, (k, v) ∈ w.restBase pos ∧ w.tombstoned k = false) ∨
    (∃ o, (k, o) ∈ w.restOverlay pos ∧ (w.slot o).isSome = true)

theorem visible_inside {w : OverlayWalk K VB VO} {pos : Positions K} {k : K}
    (h : w.Visible pos k) : w.inside k = true := by
  rcases h with ⟨v, hv, -⟩ | ⟨o, ho, -⟩
  · exact (OrderedMap.mem_entries_of_mem_remaining hv).2
  · exact (OrderedMap.mem_entries_of_mem_remaining ho).2

/-- Both sources have passed exactly what the walk meets up to `k`. -/
structure Passed (w : OverlayWalk K VB VO) (pos pos' : Positions K) (k : K) : Prop where
  base : w.restBase pos' = (w.restBase pos).filter (fun e => ahead w.desc k e.1)
  overlay : w.restOverlay pos' = (w.restOverlay pos).filter (fun e => ahead w.desc k e.1)

theorem Passed.visible_iff {w : OverlayWalk K VB VO} {pos pos' : Positions K} {k : K}
    (h : w.Passed pos pos' k) (x : K) :
    w.Visible pos' x ↔ w.Visible pos x ∧ ahead w.desc k x = true := by
  simp only [Visible, h.base, h.overlay, List.mem_filter]
  constructor
  · rintro (⟨v, ⟨hv, hx⟩, ht⟩ | ⟨o, ⟨ho, hx⟩, hl⟩)
    · exact ⟨.inl ⟨v, hv, ht⟩, hx⟩
    · exact ⟨.inr ⟨o, ho, hl⟩, hx⟩
  · rintro ⟨⟨v, hv, ht⟩ | ⟨o, ho, hl⟩, hx⟩
    · exact .inl ⟨v, ⟨hv, hx⟩, ht⟩
    · exact .inr ⟨o, ⟨ho, hx⟩, hl⟩

theorem Passed.trans {w : OverlayWalk K VB VO} {p p' p'' : Positions K} {j k : K}
    (h : w.Passed p p' j) (h' : w.Passed p' p'' k) (hjk : ahead w.desc j k = true) :
    w.Passed p p'' k where
  base := by
    rw [h'.base, h.base, List.filter_filter]
    refine List.filter_congr fun e _ => ?_
    rw [Bool.eq_iff_iff, Bool.and_eq_true]
    exact ⟨And.left, fun hk => ⟨hk, ahead_trans hjk hk⟩⟩
  overlay := by
    rw [h'.overlay, h.overlay, List.filter_filter]
    refine List.filter_congr fun e _ => ?_
    rw [Bool.eq_iff_iff, Bool.and_eq_true]
    exact ⟨And.left, fun hk => ⟨hk, ahead_trans hjk hk⟩⟩

/-- A bound on the passes a walk can still make. -/
def left (w : OverlayWalk K VB VO) (pos : Positions K) : ℕ :=
  (w.restBase pos).length + (w.restOverlay pos).length

theorem left_le (w : OverlayWalk K VB VO) (pos : Positions K) :
    w.left pos ≤ w.base.size + w.overlay.size :=
  Nat.add_le_add (OrderedMap.length_remaining_le _ _ _ _) (OrderedMap.length_remaining_le _ _ _ _)

/-- Passing the first entry of a list in walk order leaves what lies behind it. -/
theorem tail_eq_filter {V : Type*} {desc : Bool} {l : List (K × V)} {e : K × V}
    {es : List (K × V)} (hs : l.Pairwise (fun a b => ahead desc a.1 b.1 = true))
    (h : l = e :: es) : es = l.filter (fun x => ahead desc e.1 x.1) := by
  subst h
  have hkeep : es.filter (fun x => ahead desc e.1 x.1) = es :=
    List.filter_eq_self.mpr (List.pairwise_cons.mp hs).1
  simp [ahead_irrefl, hkeep]

/-- A list whose first entry lies behind `k` keeps everything. -/
theorem eq_filter_of_behind {V : Type*} {desc : Bool} {l : List (K × V)} {k : K}
    (hs : l.Pairwise (fun a b => ahead desc a.1 b.1 = true))
    (h : ∀ e, l.head? = some e → ahead desc k e.1 = true) :
    l = l.filter (fun x => ahead desc k x.1) := by
  symm
  rw [List.filter_eq_self]
  intro x hx
  cases l with
  | nil => simp at hx
  | cons e es =>
      have he := h e rfl
      rcases List.mem_cons.mp hx with rfl | hx
      · exact he
      · exact ahead_trans he ((List.pairwise_cons.mp hs).1 x hx)

theorem restBase_pairwise (w : OverlayWalk K VB VO) (pos : Positions K) :
    (w.restBase pos).Pairwise (fun a b => ahead w.desc a.1 b.1 = true) :=
  w.base.remaining_pairwise _ _ _

theorem restOverlay_pairwise (w : OverlayWalk K VB VO) (pos : Positions K) :
    (w.restOverlay pos).Pairwise (fun a b => ahead w.desc a.1 b.1 = true) :=
  w.overlay.remaining_pairwise _ _ _

theorem restBase_pass {w : OverlayWalk K VB VO} {pos : Positions K} {b : K × VB}
    (h : (w.restBase pos).head? = some b) (o : Option K) :
    w.restBase ⟨some b.1, o⟩ = (w.restBase pos).filter (fun e => ahead w.desc b.1 e.1) ∧
      (w.restBase ⟨some b.1, o⟩).length < (w.restBase pos).length := by
  obtain ⟨es, hes⟩ := List.head?_eq_some_iff.mp h
  have hpass : w.restBase ⟨some b.1, o⟩ = es := OrderedMap.remaining_excluded hes
  refine ⟨hpass.trans (tail_eq_filter (w.restBase_pairwise pos) hes), ?_⟩
  simp [hpass, hes]

theorem restOverlay_pass {w : OverlayWalk K VB VO} {pos : Positions K} {o : K × VO}
    (h : (w.restOverlay pos).head? = some o) (b : Option K) :
    w.restOverlay ⟨b, some o.1⟩ = (w.restOverlay pos).filter (fun e => ahead w.desc o.1 e.1) ∧
      (w.restOverlay ⟨b, some o.1⟩).length < (w.restOverlay pos).length := by
  obtain ⟨es, hes⟩ := List.head?_eq_some_iff.mp h
  have hpass : w.restOverlay ⟨b, some o.1⟩ = es := OrderedMap.remaining_excluded hes
  refine ⟨hpass.trans (tail_eq_filter (w.restOverlay_pairwise pos) hes), ?_⟩
  simp [hpass, hes]

theorem tombstoned_of_rest {w : OverlayWalk K VB VO} {pos : Positions K} {k : K} {o : VO}
    (h : (k, o) ∈ w.restOverlay pos) : w.tombstoned k = (w.slot o).isNone := by
  have hget : w.overlay.get? k = some o :=
    OrderedMap.get?_eq_some_iff.mpr (OrderedMap.mem_entries_of_mem_remaining h).1
  simp [tombstoned, hget]

/-- The slot carried along with a key is the overlay's; without one the key is
the base's. -/
def SlotOf (w : OverlayWalk K VB VO) (k : K) : Option VO → Prop
  | some o => w.overlay.get? k = some o
  | none => w.base.contains k = true

/-- Everything one pass can do. -/
structure PickSpec (w : OverlayWalk K VB VO) (pos : Positions K) (p : Pick K VO) : Prop where
  passed : w.Passed pos p.passed p.key
  shrinks : w.left p.passed < w.left pos
  /-- A pick is the walk's next key: whatever else is visible lies behind it. -/
  first : ∀ x, w.Visible pos x → x = p.key ∨ ahead w.desc p.key x = true
  visible_iff : w.Visible pos p.key ↔ p.tombstoned = false
  inside : w.inside p.key = true
  slot : w.SlotOf p.key p.slot

theorem peekBase_eq (w : OverlayWalk K VB VO) (pos : Positions K) :
    w.peekBase pos = (w.restBase pos).head? :=
  w.base.peek_eq_head? _ _ _

theorem peekOverlay_eq (w : OverlayWalk K VB VO) (pos : Positions K) :
    w.peekOverlay pos = (w.restOverlay pos).head? :=
  w.overlay.peek_eq_head? _ _ _

theorem peeks_of_pick_none {w : OverlayWalk K VB VO} {pos : Positions K}
    (h : w.pick pos = none) : w.peekBase pos = none ∧ w.peekOverlay pos = none := by
  unfold pick at h
  split at h
  next hb ho => exact ⟨hb, ho⟩
  next => simp at h
  next => simp at h
  next => split_ifs at h

theorem not_visible_of_pick_none {w : OverlayWalk K VB VO} {pos : Positions K}
    (h : w.pick pos = none) (x : K) : ¬ w.Visible pos x := by
  obtain ⟨hb, ho⟩ := peeks_of_pick_none h
  rw [peekBase_eq, List.head?_eq_none_iff] at hb
  rw [peekOverlay_eq, List.head?_eq_none_iff] at ho
  rintro (⟨v, hv, -⟩ | ⟨o, hv, -⟩)
  · simp [hb] at hv
  · simp [ho] at hv

/-- The head of a list in walk order comes before all its other entries. -/
theorem eq_or_ahead_of_head? {V : Type*} {desc : Bool} {l : List (K × V)} {e x : K × V}
    (hs : l.Pairwise (fun a b => ahead desc a.1 b.1 = true)) (h : l.head? = some e)
    (hx : x ∈ l) : x = e ∨ ahead desc e.1 x.1 = true := by
  obtain ⟨es, rfl⟩ := List.head?_eq_some_iff.mp h
  rcases List.mem_cons.mp hx with rfl | hx
  · exact .inl rfl
  · exact .inr ((List.pairwise_cons.mp hs).1 x hx)

section PickSpec

variable {w : OverlayWalk K VB VO} {pos : Positions K}

/-- The pass over a base entry that lies before every overlay entry. -/
theorem pickSpec_base {b : K × VB} (hb : (w.restBase pos).head? = some b)
    (ho : ∀ o, (w.restOverlay pos).head? = some o → ahead w.desc b.1 o.1 = true) :
    w.PickSpec pos ⟨b.1, none, w.tombstoned b.1, { pos with base := some b.1 }⟩ := by
  obtain ⟨hpass, hlen⟩ := restBase_pass hb pos.overlay
  have hmem : b ∈ w.restBase pos := List.mem_of_head? hb
  have hbehind := eq_filter_of_behind (w.restOverlay_pairwise pos) ho
  constructor
  case passed => exact ⟨hpass, hbehind⟩
  case shrinks => exact Nat.add_lt_add_right hlen _
  case first =>
      rintro x (⟨v, hv, -⟩ | ⟨o, hv, -⟩)
      · rcases eq_or_ahead_of_head? (w.restBase_pairwise pos) hb hv with h | h
        · exact .inl (congrArg Prod.fst h)
        · exact .inr h
      · rw [hbehind] at hv
        exact .inr (List.mem_filter.mp hv).2
  case visible_iff =>
      constructor
      · rintro (⟨v, -, ht⟩ | ⟨o, hv, hl⟩)
        · exact ht
        · rw [hbehind] at hv
          simpa [ahead_irrefl] using (List.mem_filter.mp hv).2
      · intro ht
        exact .inl ⟨b.2, hmem, ht⟩
  case inside => exact (OrderedMap.mem_entries_of_mem_remaining hmem).2
  case slot =>
      rw [SlotOf, OrderedMap.contains_iff, OrderedMap.mem_keys_iff]
      exact ⟨b.2, OrderedMap.get?_eq_some_iff.mpr (OrderedMap.mem_entries_of_mem_remaining hmem).1⟩

/-- What a pick of an overlay entry leaves to show, whichever base entries it
passes along. -/
theorem pickSpec_overlay {o : K × VO} {base : Option K}
    (ho : (w.restOverlay pos).head? = some o)
    (hb : w.restBase ⟨base, some o.1⟩ =
      (w.restBase pos).filter (fun e => ahead w.desc o.1 e.1))
    (hlen : (w.restBase ⟨base, some o.1⟩).length ≤ (w.restBase pos).length)
    (hfirst : ∀ e ∈ w.restBase pos, e.1 = o.1 ∨ ahead w.desc o.1 e.1 = true) :
    w.PickSpec pos ⟨o.1, some o.2, (w.slot o.2).isNone, ⟨base, some o.1⟩⟩ := by
  obtain ⟨hpass, hlen'⟩ := restOverlay_pass ho base
  have hmem : (o.1, o.2) ∈ w.restOverlay pos := List.mem_of_head? ho
  have htomb := tombstoned_of_rest hmem
  constructor
  case passed => exact ⟨hb, hpass⟩
  case shrinks => exact Nat.add_lt_add_of_le_of_lt hlen hlen'
  case first =>
      rintro x (⟨v, hv, -⟩ | ⟨o', hv, -⟩)
      · exact hfirst (x, v) hv
      · rcases eq_or_ahead_of_head? (w.restOverlay_pairwise pos) ho hv with h | h
        · exact .inl (congrArg Prod.fst h)
        · exact .inr h
  case visible_iff =>
      constructor
      · rintro (⟨v, -, ht⟩ | ⟨o', hv, hl⟩)
        · exact htomb ▸ ht
        · rw [← htomb, tombstoned_of_rest hv]
          simpa using hl
      · intro ht
        refine .inr ⟨o.2, hmem, ?_⟩
        cases h : w.slot o.2 with
        | some v => rfl
        | none => simp [h] at ht
  case inside => exact (OrderedMap.mem_entries_of_mem_remaining hmem).2
  case slot =>
      exact OrderedMap.get?_eq_some_iff.mpr (OrderedMap.mem_entries_of_mem_remaining hmem).1

theorem pick_spec {p : Pick K VO} (h : w.pick pos = some p) : w.PickSpec pos p := by
  unfold pick at h
  rw [peekBase_eq, peekOverlay_eq] at h
  split at h
  next => simp at h
  next b hb ho =>
    obtain rfl := Option.some.inj h
    exact pickSpec_base hb (fun o hsome => by simp [ho] at hsome)
  next o hb ho =>
    obtain rfl := Option.some.inj h
    have hnil : w.restBase pos = [] := List.head?_eq_none_iff.mp hb
    have hsame : w.restBase ⟨pos.base, some o.1⟩ = w.restBase pos := rfl
    exact pickSpec_overlay ho (by simp [hsame, hnil]) (by simp [hsame]) (by simp [hnil])
  next b o hb ho =>
    have hbase (base : Option K) (key : K) : w.restBase ⟨pos.base, some key⟩ = w.restBase pos := rfl
    have hbehind {k : K} (hk : ahead w.desc k b.1 = true) :
        w.restBase pos = (w.restBase pos).filter (fun e => ahead w.desc k e.1) :=
      eq_filter_of_behind (w.restBase_pairwise pos) fun e he => by
        rw [hb] at he
        exact Option.some.inj he ▸ hk
    split_ifs at h with hlt heq
    · -- the overlay's entry is the nearer one
      obtain rfl := Option.some.inj h
      refine pickSpec_overlay ho (hbehind hlt) le_rfl fun e he => ?_
      rw [hbehind hlt] at he
      exact .inr (List.mem_filter.mp he).2
    · -- the same key on both sides: both are passed
      obtain rfl := Option.some.inj h
      obtain ⟨hpass, hlen⟩ := restBase_pass hb (some o.1)
      refine pickSpec_overlay ho (heq ▸ hpass) hlen.le fun e he => ?_
      rcases eq_or_ahead_of_head? (w.restBase_pairwise pos) hb he with rfl | hbe
      · exact .inl heq.symm
      · exact .inr (heq ▸ hbe)
    · obtain rfl := Option.some.inj h
      refine pickSpec_base hb fun o' ho' => ?_
      rw [ho] at ho'
      obtain rfl := Option.some.inj ho'
      rcases ahead_trichotomy w.desc o.1 b.1 with h | h | h
      · exact absurd h hlt
      · exact absurd h heq
      · exact h

end PickSpec

/-! ### One call of `advance` -/

/-- What a call of `advance` from `pos` promises about its result. -/
structure AdvanceSpec (w : OverlayWalk K VB VO) (verdict : K → Verdict) (pos pos' : Positions K)
    (found : Option (K × Option VO)) : Prop where
  /-- The walk ends only when nothing visible would be taken. -/
  ended : found = none → ∀ x, w.Visible pos x → verdict x ≠ .take
  taken : ∀ k slot, found = some (k, slot) →
    w.Passed pos pos' k ∧ w.Visible pos k ∧ w.inside k = true ∧ verdict k = .take ∧
      (∀ x, w.Visible pos x → verdict x = .take → x = k ∨ ahead w.desc k x = true) ∧
      w.SlotOf k slot

/-- With fuel for every remaining entry the walk ends, and it ends at the first
visible key its verdict takes. A verdict may stop the walk only where nothing
behind it would be taken. -/
theorem advance_spec (w : OverlayWalk K VB VO) (verdict : K → Verdict)
    (hstop : ∀ x y, w.inside x = true → verdict x = .stop → ahead w.desc x y = true →
      w.inside y = true → verdict y ≠ .take)
    (fuel : ℕ) (pos : Positions K) (hfuel : w.left pos < fuel) :
    ∃ pos' found, w.advance verdict fuel pos = some (pos', found) ∧
      w.AdvanceSpec verdict pos pos' found := by
  induction fuel generalizing pos with
  | zero => simp at hfuel
  | succ fuel ih =>
      rw [advance]
      cases hpick : w.pick pos with
      | none =>
          exact ⟨pos, none, rfl, ⟨fun _ x hx => (not_visible_of_pick_none hpick x hx).elim,
            fun _ _ h => by simp at h⟩⟩
      | some p =>
          have hp := pick_spec hpick
          -- Going on past a key that is not taken keeps the promise.
          have hgo (hnot : w.Visible pos p.key → verdict p.key ≠ .take) :
              ∃ pos' found, w.advance verdict fuel p.passed = some (pos', found) ∧
                w.AdvanceSpec verdict pos pos' found := by
            obtain ⟨pos', found, hadv, hspec⟩ := ih p.passed (by have := hp.shrinks; omega)
            refine ⟨pos', found, hadv, ⟨fun hn x hx htake => ?_, fun k slot hk => ?_⟩⟩
            · rcases hp.first x hx with rfl | hbehind
              · exact hnot hx htake
              · exact hspec.ended hn x ((hp.passed.visible_iff x).mpr ⟨hx, hbehind⟩) htake
            · obtain ⟨hpass, hvis, hin, htake, hfirst, hslot⟩ := hspec.taken k slot hk
              obtain ⟨hvis', hbehind⟩ := (hp.passed.visible_iff k).mp hvis
              refine ⟨hp.passed.trans hpass hbehind, hvis', hin, htake, fun x hx hxt => ?_, hslot⟩
              rcases hp.first x hx with rfl | hxp
              · exact absurd hxt (hnot hx)
              · exact hfirst x ((hp.passed.visible_iff x).mpr ⟨hx, hxp⟩) hxt
          cases htomb : p.tombstoned with
          | true =>
              simp only [htomb, if_true]
              exact hgo fun hvis => by simp [hp.visible_iff.mp hvis] at htomb
          | false =>
              simp only [htomb, Bool.false_eq_true, if_false]
              cases hv : verdict p.key with
              | skip => exact hgo fun _ => by simp [hv]
              | stop =>
                  refine ⟨p.passed, none, rfl, ⟨fun _ x hx htake => ?_, fun _ _ h => by simp at h⟩⟩
                  rcases hp.first x hx with rfl | hbehind
                  · simp [hv] at htake
                  · exact hstop p.key x hp.inside hv hbehind (visible_inside hx) htake
              | take =>
                  refine ⟨p.passed, some (p.key, p.slot), rfl,
                    ⟨fun h => by simp at h, fun k slot h => ?_⟩⟩
                  obtain ⟨rfl, rfl⟩ := Prod.mk.inj (Option.some.inj h)
                  exact ⟨hp.passed, hp.visible_iff.mpr htomb, hp.inside, hv,
                    fun x hx _ => hp.first x hx, hp.slot⟩

/-- A call of `advance` hands over the first of the keys it still has to take,
and leaves the others. -/
theorem advance_of_sorted (w : OverlayWalk K VB VO) (verdict : K → Verdict)
    (hstop : ∀ x y, w.inside x = true → verdict x = .stop → ahead w.desc x y = true →
      w.inside y = true → verdict y ≠ .take)
    (fuel : ℕ) (pos : Positions K) (hfuel : w.left pos < fuel) (ks : List K)
    (hsorted : ks.Pairwise (fun a b => ahead w.desc a b = true))
    (hmem : ∀ k, k ∈ ks ↔ w.Visible pos k ∧ verdict k = .take) :
    match ks with
    | [] => ∃ pos', w.advance verdict fuel pos = some (pos', none)
    | k :: ks => ∃ pos' slot, w.advance verdict fuel pos = some (pos', some (k, slot)) ∧
        w.SlotOf k slot ∧ ∀ x, x ∈ ks ↔ w.Visible pos' x ∧ verdict x = .take := by
  obtain ⟨pos', found, hadv, hspec⟩ := w.advance_spec verdict hstop fuel pos hfuel
  cases ks with
  | nil =>
      cases found with
      | none => exact ⟨pos', hadv⟩
      | some f =>
          obtain ⟨-, hvis, -, htake, -⟩ := hspec.taken f.1 f.2 rfl
          simpa using (hmem f.1).mpr ⟨hvis, htake⟩
  | cons k ks =>
      obtain ⟨hbehind, hks⟩ := List.pairwise_cons.mp hsorted
      obtain ⟨hvis, htake⟩ := (hmem k).mp (by simp)
      cases found with
      | none => exact absurd htake (hspec.ended rfl k hvis)
      | some f =>
          obtain ⟨f, slot⟩ := f
          obtain ⟨hpass, hfvis, -, hftake, hfirst, hslot⟩ := hspec.taken f slot rfl
          have hkf : k = f := by
            rcases hfirst k hvis htake with h | h
            · exact h
            · rcases List.mem_cons.mp ((hmem f).mpr ⟨hfvis, hftake⟩) with rfl | hf
              · rfl
              · have := ahead_trans h (hbehind f hf)
                simp [ahead_irrefl] at this
          subst hkf
          refine ⟨pos', slot, hadv, hslot, fun x => ?_⟩
          rw [hpass.visible_iff]
          constructor
          · intro hx
            obtain ⟨hxv, hxt⟩ := (hmem x).mp (.tail _ hx)
            exact ⟨⟨hxv, hbehind x hx⟩, hxt⟩
          · rintro ⟨⟨hxv, hxb⟩, hxt⟩
            rcases List.mem_cons.mp ((hmem x).mpr ⟨hxv, hxt⟩) with rfl | hx
            · simp [ahead_irrefl] at hxb
            · exact hx

/-! ### What is visible, in terms of the merged map -/

/-- Every visible key is a key of the merged map. -/
theorem contains_merge_of_visible {w : OverlayWalk K VB VO} {pos : Positions K} {k : K}
    (h : w.Visible pos k) : (w.base.merge w.slot w.overlay).contains k = true := by
  rw [OrderedMap.contains, OrderedMap.get?_merge]
  rcases h with ⟨v, hv, ht⟩ | ⟨o, ho, hl⟩
  · have hbase : w.base.get? k = some v :=
      OrderedMap.get?_eq_some_iff.mpr (OrderedMap.mem_entries_of_mem_remaining hv).1
    cases hget : w.overlay.get? k with
    | none => simp [hbase]
    | some o => simpa [tombstoned, hget] using ht
  · have hget : w.overlay.get? k = some o :=
      OrderedMap.get?_eq_some_iff.mpr (OrderedMap.mem_entries_of_mem_remaining ho).1
    simpa [hget] using hl

/-- A merged key is held by the base without a tombstone over it, or it is live
in the overlay. -/
theorem contains_merge_iff {w : OverlayWalk K VB VO} {k : K} :
    (w.base.merge w.slot w.overlay).contains k = true ↔
      (∃ v, (k, v) ∈ w.base.entries ∧ w.tombstoned k = false) ∨
        (∃ o, (k, o) ∈ w.overlay.entries ∧ (w.slot o).isSome = true) := by
  simp only [OrderedMap.contains, OrderedMap.get?_merge, ← OrderedMap.get?_eq_some_iff, tombstoned]
  cases hget : w.overlay.get? k with
  | none => simp [Option.isSome_iff_exists]
  | some o =>
      simp only [Option.some.injEq, exists_eq_left', Option.any_some, Option.isNone_eq_false_iff]
      constructor
      · exact .inr
      · rintro (⟨v, -, h⟩ | h)
        · exact h
        · exact h

/-- Both sources at one bound inside the walked part show all merged keys the
bound admits. -/
theorem visible_iff_of_bound {w : OverlayWalk K VB VO} {p : Positions K} {b : Bound K} {k : K}
    (hbase : resume p.base w.start = b) (hover : resume p.overlay w.start = b)
    (hb : b = .included k ∨ b = .excluded k) (hk : w.inside k = true)
    (hconv : OrderedMap.Convex w.inside) (x : K) :
    w.Visible p x ↔ (w.base.merge w.slot w.overlay).contains x = true ∧
      b.admits w.desc x = true ∧ w.inside x = true := by
  simp only [Visible, restBase, restOverlay, hbase, hover, contains_merge_iff,
    OrderedMap.mem_remaining_of_inside hb hk hconv]
  constructor
  · rintro (⟨v, ⟨hv, ha, hi⟩, ht⟩ | ⟨o, ⟨ho, ha, hi⟩, hl⟩)
    · exact ⟨.inl ⟨v, hv, ht⟩, ha, hi⟩
    · exact ⟨.inr ⟨o, ho, hl⟩, ha, hi⟩
  · rintro ⟨⟨v, hv, ht⟩ | ⟨o, ho, hl⟩, ha, hi⟩
    · exact .inl ⟨v, ⟨hv, ha, hi⟩, ht⟩
    · exact .inr ⟨o, ⟨ho, ha, hi⟩, hl⟩

end OverlayWalk

end OrdMap
