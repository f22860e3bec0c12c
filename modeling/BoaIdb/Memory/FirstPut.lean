import BoaIdb.Backend.Refusals
import BoaIdb.Engine.Maintain

/-!
The first put of an upgrade: on an empty memory database nothing refuses a value that can be
encoded.
-/

namespace BoaIdb

open Clone Faults LawfulTxn

namespace Engine

/-! ### The entries of one record -/

section Upgrade

variable {σ : Type} [BackendTxn σ] [LawfulTxn σ] {limits : LimitConfig} {store : StoreMeta}

/-- An upgrade in which no index entry but those of one primary key has been made. -/
structure SoleHolder (pk : Bytes) (w : View) (s : σ) : Prop where
  upgrade : Upgrade s
  records : (view s).records = w.records
  holder : ∀ k, (view s).entries k → k.primaryKey = pk

variable {pk : Bytes} {w : View}

/-- Nobody else holds the key of an entry. -/
theorem SoleHolder.indexPut (index : IndexId) (key : Bytes) (unique : Bool) :
    Meets (SoleHolder pk w (σ := σ)) (indexPut index key pk unique) (fun _ => SoleHolder pk w)
      (fun _ _ => False) := by
  refine meets_of_forall fun s hs => ?_
  refine ((LawfulTxn.indexPut s index key pk unique).and
    (LawfulTxn.indexPut_upgrade s index key pk unique hs.upgrade)).mapErr ?_ |>.mono (fun _ h => h)
      (fun _ s' hs' => ?_) fun _ _ h => h
  · rintro e s' ⟨-, ⟨-, hfree, pk', hheld⟩, -⟩
    obtain rfl : pk' = pk := hs.holder _ hheld
    exact hfree hheld
  · obtain ⟨⟨-, hview⟩, hupgrade⟩ := hs'
    refine ⟨hupgrade, ?_, fun k hk => ?_⟩
    · rw [hview]
      exact hs.records
    · rw [hview] at hk
      rcases hk with rfl | hk
      · rfl
      · exact hs.holder k hk

theorem SoleHolder.syncIndex (index : IndexMeta) {new : ScValue} {keys : List Bytes}
    (hkeys : indexKeysForValue limits index new = .ok keys) :
    Meets (SoleHolder pk w (σ := σ)) (syncIndex limits index none new pk) (fun _ => SoleHolder pk w)
      (fun _ _ => False) := by
  have hprog : Engine.syncIndex limits index none new pk =
      (Prog.forEach (fun key => Engine.indexPut index.id key pk index.unique)
        (keys.filter (· ∉ ([] : List Bytes))) : Prog σ IdbError Unit) := by
    rw [Engine.syncIndex, hkeys]
    rfl
  rw [hprog]
  exact meets_forEach (fun _ => SoleHolder pk w) (fun key _ => SoleHolder.indexPut _ key _) _

theorem SoleHolder.syncIndexesOnPut {key : Key} (hpk : encodeKey limits key = .ok pk)
    {new : ScValue}
    (hkeys : ∀ index ∈ store.liveIndexes, ∃ keys, indexKeysForValue limits index new = .ok keys) :
    Meets (SoleHolder pk w (σ := σ)) (syncIndexesOnPut limits store none new key)
      (fun _ => SoleHolder pk w) (fun _ _ => False) := by
  unfold Engine.syncIndexesOnPut
  rw [hpk, Prog.lift_ok_bind]
  generalize store.liveIndexes = indexes at hkeys
  induction indexes with
  | nil => exact meets_pure fun _ hs => hs
  | cons index indexes ih =>
      obtain ⟨keys, hindex⟩ := hkeys index (.head _)
      exact (SoleHolder.syncIndex index hindex).bind fun _ => ih fun i hi => hkeys i (.tail _ hi)

end Upgrade

end Engine

namespace Pending

/-- A record that is not there yet is not refused. -/
theorem put_new {base : Rows} {p : Pending} {key : RecordKey} {val : Bytes} {noOverwrite : Bool}
    (h : (p.view base).records key = none) (e : BackendError) :
    p.put base (fun _ => .ok ()) key val noOverwrite ≠ .error e := by
  have habsent : p.recordExists base key = false := by
    rw [recordExists_eq, h]
    rfl
  intro herror
  rw [put, habsent, Bool.and_false] at herror
  cases herror

end Pending

namespace Memory

open Engine

/-- An upgrade of an empty database at its begin. -/
def Session.first : Session := ⟨.empty, (⟨emptyMeta []⟩ : MemoryDatabase).begin .versionChange []⟩

theorem Session.records_first (key : RecordKey) : (view Session.first).records key = none := rfl

theorem Session.entries_first (key : IndexKey) : ¬ (view Session.first).entries key := by
  intro h
  cases h

variable {env : CodecEnv} {limits : LimitConfig} {store : StoreMeta}
    {keygen generated : KeyGenerator}
  {value new : ScValue} {explicitKey : Option Key} {key : Key} {pk bytes : Bytes}

/-- Nothing but the index entries stops the put of what can be encoded. -/
theorem meets_put_sync {known : Prop} {halt : Option IdbError → Prop} (noOverwrite : Bool)
    (hkey : determineKey store keygen value explicitKey = .ok (key, generated, new))
    (hpk : encodeKey limits key = .ok pk) (hbytes : encodeScf env limits new = .ok bytes)
    (hsync : Meets (fun s : Session => SoleHolder pk (view Session.first) s)
      (syncIndexesOnPut limits store none new key)
      (fun _ s' => known ∧ SoleHolder pk (view Session.first) s') fun e _ => halt e) :
    Meets (· = Session.first) (put env limits store keygen value explicitKey noOverwrite)
      (fun _ s' => known ∧ Upgrade s' ∧ (view s').records ⟨store.id, pk⟩ = some bytes)
      (fun e _ => halt e) := by
  have hscope {s : Session} (hs : Upgrade s) (id : StoreId) : s.txn.checkScope id = .ok () :=
    if_pos (.inl hs)
  have hwrite {s : Session} (hs : Upgrade s) : s.txn.checkReadwrite = .ok () :=
    if_neg fun h => by cases hs.symm.trans h
  -- an upgrade of an empty database: nothing is found, and no write is refused
  have hget : Meets (· = Session.first) ((BackendTxn.get store.id pk).mapErr backendErr)
      (fun r s' => r = none ∧ SoleHolder pk (view Session.first) s') (fun _ _ => False) := by
    refine Meets.mapErr (Session.meets_askTxn (fun r h => ?_) fun e h => ?_) fun _ _ h => h
    · cases h
      exact ⟨rfl, rfl, rfl, fun k hk => (Session.entries_first k hk).elim⟩
    · cases h
  have hput {s : Session} (hs : SoleHolder pk (view Session.first) s) :
      Meets (· = s) ((BackendTxn.put store.id pk bytes noOverwrite).mapErr backendErr)
        (fun _ s' => Upgrade s' ∧ (view s').records ⟨store.id, pk⟩ = some bytes)
        (fun _ _ => False) := by
    have hnew : (view s).records ⟨store.id, pk⟩ = none := by rw [hs.records]; rfl
    have hlands : Meets (· = s) (BackendTxn.put store.id pk bytes noOverwrite)
        (fun _ s' => Upgrade s') (fun _ _ => False) := by
      refine Session.meets_onTxn (fun t h => ?_) fun e h => ?_
      · obtain ⟨_, -, h⟩ := bind_ok h
        obtain ⟨_, -, h⟩ := bind_ok h
        obtain ⟨p, -, ht⟩ := bind_ok h
        cases ht
        exact hs.upgrade
      · rw [MemoryTxn.put, hscope hs.upgrade, hwrite hs.upgrade] at h
        have hpending :
            (s.txn.pending.put s.rows (fun _ => .ok ()) ⟨store.id, pk⟩ bytes noOverwrite >>=
            fun p => Except.ok { s.txn with pending := p }) = .error e := h
        exact Pending.put_new hnew e (bind_error hpending fun _ h => by cases h)
    refine ((LawfulTxn.put s store.id pk bytes noOverwrite).and hlands).mapErr (fun _ _ h => h.2)
      |>.mono (fun _ h => h) (fun _ s' hs' => ⟨hs'.2, ?_⟩) fun _ _ h => h
    rw [hs'.1]
    exact Function.update_self ..
  have hset {s : Session} (hs : Upgrade s) (value : F64Bits) :
      Meets (· = s) ((BackendTxn.keyGenSet store.id value).mapErr backendErr)
        (fun _ s' => view s' = view s ∧ Upgrade s') (fun _ _ => False) := by
    have hlands : Meets (· = s) (BackendTxn.keyGenSet store.id value) (fun _ s' => Upgrade s')
        (fun _ _ => False) := by
      refine Session.meets_onTxn (fun t h => ?_) fun e h => ?_
      · obtain ⟨_, -, h⟩ := bind_ok h
        cases h
        exact hs
      · rw [MemoryTxn.keyGenSet, hwrite hs] at h
        cases h
    exact ((LawfulTxn.keyGenSet s store.id value).and hlands).mapErr fun _ _ h => h.2
  unfold Engine.put
  rw [hkey, Prog.lift_ok_bind]
  dsimp only
  rw [hpk, Prog.lift_ok_bind]
  refine (hget.mono (fun _ h => h) (fun _ _ h => h) fun _ _ h => h.elim).bind fun existing =>
    Meets.of_imp ?_
  rintro rfl
  rw [Option.isSome_none, Bool.and_false, if_neg Bool.false_ne_true]
  refine hsync.bind fun _ => Meets.of_imp fun hknown => meets_of_forall fun s hs => ?_
  rw [hbytes]
  refine ((hput hs).mono (fun _ h => h) (fun _ _ h => h) fun _ _ h => h.elim).bind fun _ =>
    meets_of_forall fun s₁ hs₁ => ?_
  refine ((hset hs₁.1 _).mono (fun _ h => h) (fun _ _ h => h) fun _ _ h => h.elim).bind fun _ =>
    meets_pure fun s₂ hs₂ => ?_
  rw [hs₂.1]
  exact ⟨hknown, hs₂.2, hs₁.2⟩

/-- What can be encoded is put. -/
theorem meets_put_first (noOverwrite : Bool)
    (hkey : determineKey store keygen value explicitKey = .ok (key, generated, new))
    (hpk : encodeKey limits key = .ok pk)
    (hkeys : ∀ index ∈ store.liveIndexes, ∃ keys, indexKeysForValue limits index new = .ok keys)
    (hbytes : encodeScf env limits new = .ok bytes) :
    Meets (· = Session.first) (put env limits store keygen value explicitKey noOverwrite)
      (fun _ s' => Upgrade s' ∧ (view s').records ⟨store.id, pk⟩ = some bytes)
      (fun _ _ => False) := by
  have hsync : Meets (fun s : Session => SoleHolder pk (view Session.first) s)
      (syncIndexesOnPut limits store none new key)
      (fun _ s' => True ∧ SoleHolder pk (view Session.first) s') fun _ _ => False :=
    (SoleHolder.syncIndexesOnPut hpk hkeys).mono (fun _ h => h) (fun _ _ h => ⟨trivial, h⟩)
      fun _ _ h => h
  exact (meets_put_sync noOverwrite hkey hpk hbytes hsync).mono (fun _ h => h) (fun _ _ h => h.2)
    fun _ _ h => h

end Memory

end BoaIdb
