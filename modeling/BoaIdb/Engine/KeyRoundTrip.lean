import BoaIdb.Core.KeyOrder
import BoaIdb.Engine.KeyPath

/-!
Keys that pass through values: the conversion of a key to a value and back, by itself and at
the end of a key path.
-/

namespace BoaIdb

open Clone Faults

namespace Key

mutual

/-- Whether the key is binary or has a binary key among its items, at any depth. -/
def holdsBinary : Key → Bool
  | .binary _ => true
  | .array items => itemsHoldBinary items
  | _ => false

def itemsHoldBinary : List Key → Bool
  | [] => false
  | item :: items => item.holdsBinary || itemsHoldBinary items

end

end Key

namespace ScValue

/-- What `to_key` says about array buffers, which `from_key` makes of binary keys. -/
def arrayBufferError : KeyError := .invalidType "Discriminant(13) cannot be a key"

mutual

theorem toKey_fromKey {key : Key} (h : key.Numeric) : (fromKey key).toKey =
    if key.holdsBinary then .error arrayBufferError else .ok (some key) := by
  cases h with
  | number hn =>
      rw [fromKey, toKey, hn]
      rfl
  | date hd =>
      rw [fromKey, toKey, hd]
      rfl
  | string s => rfl
  | binary b =>
      simp only [fromKey, toKey, discriminant]
      exact congrArg Except.error (show _ = arrayBufferError by decide)
  | @array items hitems =>
      rw [fromKey, toKey, elementKeys_fromKeys items hitems, Key.holdsBinary]
      split <;> rfl

theorem elementKeys_fromKeys (items : List Key) (h : ∀ item ∈ items, item.Numeric) :
    elementKeys (fromKeys items) =
      if Key.itemsHoldBinary items then .error arrayBufferError else .ok (some items) := by
  cases items with
  | nil => rfl
  | cons item items =>
      have hitem := toKey_fromKey (h item (.head _))
      have hitems := elementKeys_fromKeys items fun other hmem => h other (.tail _ hmem)
      rw [fromKeys, elementKeys, hitem, Key.itemsHoldBinary]
      cases item.holdsBinary with
      | true => rfl
      | false =>
          show (elementKeys (fromKeys items) >>= _) = _
          rw [hitems, Bool.false_or]
          split <;> rfl

end

/-- A valid key comes back from its value exactly when nothing in it is binary. -/
theorem toKey_fromKey_iff {limits : LimitConfig} {key : Key} (h : key.validate limits = .ok ()) :
    (fromKey key).toKey = .ok (some key) ↔ key.holdsBinary = false := by
  rw [toKey_fromKey (Key.numeric_of_validate h)]
  cases key.holdsBinary <;> simp

theorem toKey_fromKey_iff_nested :
    (fromKey (.array [.string [0x61], .array [.date 0]])).toKey =
      .ok (some (.array [.string [0x61], .array [.date 0]])) ↔
    Key.holdsBinary (.array [.string [0x61], .array [.date 0]]) = false :=
  @toKey_fromKey_iff {} _ rfl

theorem binary_lost : ¬ ∀ (limits : LimitConfig) (key : Key), key.validate limits = .ok () →
    (fromKey key).toKey = .ok (some key) :=
  fun h => nomatch h {} (.binary [1]) rfl

end ScValue

namespace KeyPath

theorem lookup_insertEntry (entries : List (Utf16String × ScValue)) (key : Utf16String)
    (val : ScValue) : (insertEntry entries key val).lookup key = some val := by
  induction entries with
  | nil => rw [insertEntry, List.lookup_cons_self]
  | cons e entries ih =>
      obtain ⟨k, v⟩ := e
      rw [insertEntry]
      split
      next heq => rw [heq, List.lookup_cons_self]
      next hne =>
        have hdiffer : (key == k) = false := by simpa using Ne.symm hne
        rw [List.lookup_cons, hdiffer]
        exact ih

/-- What is extracted where a key was injected is what its value converts to. -/
theorem extractSteps_injectSteps {steps : List Utf16String} (hsteps : steps ≠ []) {v v' : ScValue}
    {key : Key} (h : injectSteps steps v key = .ok v') :
    extractSteps steps v' = (ScValue.fromKey key).toKey := by
  induction steps generalizing v v' with
  | nil => exact absurd rfl hsteps
  | cons step steps ih =>
      cases v with
      | object entries =>
          cases steps with
          | nil =>
              rw [← Except.ok.inj h, extractSteps, lookup_insertEntry]
              rfl
          | cons next steps =>
              obtain ⟨inner, hinner, hok⟩ := bind_ok h
              rw [← Except.ok.inj hok, extractSteps, lookup_insertEntry]
              exact ih (List.cons_ne_nil _ _) hinner
      | _ => cases steps <;> cases h

theorem splitPathUnits_ne_nil (path : Utf16String) : splitPathUnits path ≠ [] :=
  List.splitOn_ne_nil _ _

end KeyPath

end BoaIdb
