import ColorAlgebra.Proofs.Editing.Inverse

namespace ColorAlgebra

open Word

/-! ## Keys -/

namespace Key

variable {key : Int} {size k : Nat}

/-- The key stands for the position: the key itself, or from the end if it is negative. -/
structure Addresses (key : Int) (size k : Nat) : Prop where
  lt : k < size
  eq : (k : Int) = if 0 ≤ key then key else key + size

theorem position?_eq_some_iff_addresses (hsize : size ≤ maxLength) :
    position? key size = some k ↔ Addresses key size k := by
  rw [position?_eq_some_iff, fromFront_eq]
  exact ⟨fun ⟨_, hlt, heq⟩ => ⟨hlt, heq⟩, fun h => ⟨hsize, h.lt, h.eq⟩⟩

theorem exists_addresses_iff : (∃ k, Addresses key size k) ↔ InRange key size := by
  unfold InRange
  constructor
  · rintro ⟨k, hlt, heq⟩
    split at heq <;> omega
  · rintro ⟨hlow, hhigh⟩
    by_cases h : 0 ≤ key
    · exact ⟨key.toNat, by omega, by rw [if_pos h]; omega⟩
    · exact ⟨(key + size).toNat, by omega, by rw [if_neg h]; omega⟩

/-- A key from the front and the one from the end that is a length less. -/
theorem addresses_sub_iff (hlow : 0 ≤ key) (hhigh : key < size) :
    Addresses (key - size) size k ↔ Addresses key size k := by
  have hneg : ¬0 ≤ key - size := by omega
  have hsum : key - size + size = key := Int.sub_add_cancel key size
  constructor
  · rintro ⟨hlt, heq⟩
    rw [if_neg hneg, hsum] at heq
    exact ⟨hlt, by rw [if_pos hlow, heq]⟩
  · rintro ⟨hlt, heq⟩
    rw [if_pos hlow] at heq
    exact ⟨hlt, by rw [if_neg hneg, hsum, heq]⟩

end Key

/-! ## Lists -/

namespace Sequence

variable {α : Type} {l : List α} {key : Int} {k : Nat}

section
variable (hlen : l.length ≤ maxLength) (hk : Key.Addresses key l.length k)
include hlen hk

theorem get?_of_addresses : get? l key = l[k]? := by
  unfold get?
  rw [(Key.position?_eq_some_iff_addresses hlen).mpr hk, Option.bind_some]

theorem modify?_of_addresses (f : α → α) : modify? l key f = some (l.modify k f) := by
  unfold modify?
  rw [(Key.position?_eq_some_iff_addresses hlen).mpr hk, Option.map_some]

theorem set_of_addresses (x : α) : set l key x = .ok (l.set k x) := by
  unfold set
  rw [(Key.position?_eq_some_iff_addresses hlen).mpr hk]

end

theorem modify?_eq_none_iff {f : α → α} :
    modify? l key f = none ↔ Key.position? key l.length = none := by
  unfold modify?
  rw [Option.map_eq_none_iff]

end Sequence

/-! ## Workspaces -/

namespace Workspace

variable {r : Range} {t : Format} {w : Workspace r t} {key : Int} {k : Nat}

/-- The workspace with another color at a position. -/
def replace (w : Workspace r t) (k : Nat) (x : Color r t) : Workspace r t :=
  { w with current := w.current.set k x }

theorem Fits.replace (hw : w.Fits) (k : Nat) (x : Color r t) : (w.replace k x).Fits :=
  ⟨Nat.le_trans (Nat.le_of_eq List.length_set) hw.1, hw.2⟩

theorem addresses_replace (x : Color r t) {j : Nat} :
    Key.Addresses key (w.replace k x).current.length j ↔ Key.Addresses key w.current.length j := by
  unfold replace
  rw [List.length_set]

section
variable (hw : w.Fits) (hk : Key.Addresses key w.current.length k)
include hw hk

theorem run_get_of_addresses : w.run (.get key) = (.color? w.current[k]?, w) :=
  congrArg (fun c => w.answer (.color? c)) (Sequence.get?_of_addresses hw.1 hk)

theorem run_set_of_addresses (x : Color r t) : w.run (.set key x) = (.done, w.replace k x) :=
  congrArg w.attempt (Sequence.set_of_addresses hw.1 hk x)

/-- Changing a channel in place replaces the color by one with the other channel. -/
theorem run_setChannel_of_addresses {c : Color r t} (hc : w.current[k]? = some c) (i : Fin 3)
    (v : Double) :
    ∃ channels, c.channels.set i (v.convert t) = .ok channels ∧
      w.run (.setChannel key i v) = (.flag true, w.replace k ⟨channels⟩) := by
  obtain ⟨hlt, rfl⟩ := List.getElem?_eq_some_iff.mp hc
  obtain ⟨channels, hchannels⟩ := w.current[k].channels.exists_set i.isLt (v.convert t)
  refine ⟨channels, hchannels, ?_⟩
  show w.setChannel key i v = _
  unfold setChannel replace
  rw [Sequence.get?_of_addresses hw.1 hk, hc]
  dsimp only
  rw [hchannels]
  dsimp only
  rw [Sequence.modify?_of_addresses hw.1 hk, List.set_eq_modify]
  rfl

end

/-- A key that is not accepted changes nothing. -/
theorem run_of_not_inRange (hw : w.Fits) (hkey : ¬Key.InRange key w.current.length) :
    w.run (.get key) = (.color? none, w) ∧
      (∀ (i : Fin 3) v, w.run (.setChannel key i v) = (.flag false, w)) ∧
      ∀ x, w.run (.set key x) = (.failed (.indexOutOfRange key w.current.length), w) := by
  have hplace := (Key.position?_eq_none_iff hw.1).mpr hkey
  have hget := Sequence.get?_eq_none_iff.mpr hplace
  refine ⟨congrArg (fun c => w.answer (.color? c)) hget, fun i v => ?_, fun x => ?_⟩
  · show w.setChannel key i v = _
    unfold setChannel
    rw [hget]
    rfl
  · exact congrArg w.attempt (Sequence.set_eq_error_iff.mpr ⟨hplace, rfl⟩)

/-- A color is only replaced at the position of a key. -/
theorem run_set_eq_done_iff (hw : w.Fits) {x : Color r t} {w' : Workspace r t} :
    w.run (.set key x) = (.done, w') ↔
      ∃ k, Key.Addresses key w.current.length k ∧ w' = w.replace k x := by
  constructor
  · intro h
    by_cases hkey : Key.InRange key w.current.length
    · obtain ⟨k, hk⟩ := Key.exists_addresses_iff.mpr hkey
      exact ⟨k, hk, (Prod.mk.inj ((run_set_of_addresses hw hk x).symm.trans h)).2.symm⟩
    · cases ((run_of_not_inRange hw hkey).2.2 x).symm.trans h
  · rintro ⟨k, hk, rfl⟩
    exact run_set_of_addresses hw hk x

/-- The numbers from minus the length up to the length are keys, and each stands for one
position: reading, changing in place and replacing reach that position. With any other number
they fail and change nothing. A position has the same color by both of its keys. What is replaced
is read back, as many colors are there as before, and those at other positions are the same;
replacing a color by itself changes nothing, and replacing at two positions can be done in
either order. Where an element is put in, a key stands for the same position, and any number for
a place of the list. Positions are found in words. -/
theorem keyed_access (hw : w.Fits) :
    (∀ key : Int, Key.InRange key w.current.length →
      ∃ k c, Key.Addresses key w.current.length k ∧ w.current[k]? = some c ∧
        w.run (.get key) = (.color? (some c), w) ∧
        (∀ f, Sequence.modify? w.current key f = some (w.current.set k (f c))) ∧
        (∀ (i : Fin 3) v, ∃ channels, c.channels.set i (v.convert t) = .ok channels ∧
          w.run (.setChannel key i v) = (.flag true, w.replace k ⟨channels⟩)) ∧
        ∀ x, w.run (.set key x) = (.done, w.replace k x)) ∧
    (∀ key : Int, ¬Key.InRange key w.current.length →
      w.run (.get key) = (.color? none, w) ∧
      (∀ f, Sequence.modify? w.current key f = none) ∧
      (∀ (i : Fin 3) v, w.run (.setChannel key i v) = (.flag false, w)) ∧
      ∀ x, w.run (.set key x) = (.failed (.indexOutOfRange key w.current.length), w)) ∧
    (∀ key : Int, 0 ≤ key → key < w.current.length →
      w.run (.get key) = w.run (.get (key - w.current.length))) ∧
    (∀ (key : Int) x w', w.run (.set key x) = (.done, w') →
      w'.run (.get key) = (.color? (some x), w') ∧
      w'.current.length = w.current.length ∧ w'.spare = w.spare ∧
      ∀ j : Nat, ¬Key.Addresses key w.current.length j → w'.current[j]? = w.current[j]?) ∧
    (∀ (key : Int) c, w.run (.get key) = (.color? (some c), w) → w.run (.set key c) = (.done, w)) ∧
    (∀ (key key' : Int) (k k' : Nat) x y, Key.Addresses key w.current.length k →
      Key.Addresses key' w.current.length k' → k ≠ k' →
      ∃ w', (w.run (.set key x)).2.run (.set key' y) = (.done, w') ∧
        (w.run (.set key' y)).2.run (.set key x) = (.done, w')) ∧
    ∀ (key : Int) (size : Nat),
      (∀ k, Key.position? key size = some k → Key.insertionPoint key size = k) ∧
      Key.insertionPoint key size ≤ size ∧
      (IsSigned key →
        Key.positionWords? key size = some (Key.position? key size) ∧
        Key.insertionWords? key size = some (Key.insertionPoint key size)) := by
  refine ⟨fun key hkey => ?accepted, fun key hkey => ?rejected, fun key hlow hhigh => ?aliased,
    fun key x w' hset => ?readBack, fun key c hget => ?same,
    fun key key' k k' x y hk hk' hne => ?order, fun key size => ?places⟩
  case accepted =>
    obtain ⟨k, hk⟩ := Key.exists_addresses_iff.mpr hkey
    have hc := List.getElem?_eq_getElem hk.lt
    refine ⟨k, _, hk, hc, hc ▸ run_get_of_addresses hw hk, fun f => ?_,
      run_setChannel_of_addresses hw hk hc, run_set_of_addresses hw hk⟩
    rw [Sequence.modify?_of_addresses hw.1 hk, List.modify_eq_set_getElem?, hc]
    rfl
  case rejected =>
    obtain ⟨hget, hchannel, hset⟩ := run_of_not_inRange hw hkey
    have hplace := (Key.position?_eq_none_iff hw.1).mpr hkey
    exact ⟨hget, fun f => Sequence.modify?_eq_none_iff.mpr hplace, hchannel, hset⟩
  case aliased =>
    obtain ⟨k, hk⟩ := Key.exists_addresses_iff.mpr ⟨by omega, hhigh⟩
    rw [run_get_of_addresses hw hk,
      run_get_of_addresses hw ((Key.addresses_sub_iff hlow hhigh).mpr hk)]
  case readBack =>
    obtain ⟨k, hk, rfl⟩ := (run_set_eq_done_iff hw).mp hset
    refine ⟨?_, List.length_set, rfl, fun j hj => ?_⟩
    · rw [run_get_of_addresses (hw.replace k x) ((addresses_replace x).mpr hk)]
      show (Reply.color? (w.current.set k x)[k]?, _) = _
      rw [List.getElem?_set_self hk.lt]
    · refine List.getElem?_set_ne ?_
      rintro rfl
      exact hj hk
  case same =>
    by_cases hkey : Key.InRange key w.current.length
    · obtain ⟨k, hk⟩ := Key.exists_addresses_iff.mpr hkey
      have hc : w.current[k]? = some c := by
        have hreply := (Prod.mk.inj ((run_get_of_addresses hw hk).symm.trans hget)).1
        exact Reply.color?.inj hreply
      obtain ⟨hlt, rfl⟩ := List.getElem?_eq_some_iff.mp hc
      rw [run_set_of_addresses hw hk, replace, List.set_getElem_self]
    · cases (run_of_not_inRange hw hkey).1.symm.trans hget
  case order =>
    refine ⟨(w.replace k x).replace k' y, ?_, ?_⟩
    · rw [run_set_of_addresses hw hk]
      exact run_set_of_addresses (hw.replace k x) ((addresses_replace x).mpr hk') y
    · rw [run_set_of_addresses hw hk']
      refine (run_set_of_addresses (hw.replace k' y) ((addresses_replace y).mpr hk) x).trans ?_
      unfold replace
      dsimp only
      rw [List.set_comm y x hne.symm]
  case places =>
    exact ⟨fun k => Key.insertionPoint_of_position?, Key.insertionPoint_le key size,
      fun hkey => ⟨Key.positionWords?_eq hkey size, Key.insertionWords?_eq hkey size⟩⟩

/-- The last color by both of its keys, the least key of all, and two colors put in place of the
first and the last. -/
theorem keyed_access_extreme :
    let w : Workspace .normal .half := ⟨[.splat .zero, .splat .one, .splat .nan], []⟩
    let least : Int := -0x8000000000000000
    w.Fits ∧ w.run (.get 2) = w.run (.get (-1)) ∧
      w.run (.set least .zero) = (.failed (.indexOutOfRange least 3), w) ∧
      IsSigned least ∧ Key.positionWords? least 3 = some none ∧
      Key.insertionWords? least 3 = some 0 ∧
      ∃ w', (w.run (.set 0 (.splat .one))).2.run (.set (-1) .zero) = (.done, w') ∧
        (w.run (.set (-1) .zero)).2.run (.set 0 (.splat .one)) = (.done, w') := by
  intro w least
  have hw : w.Fits := ⟨by decide, by decide⟩
  have hleast : IsSigned least := by decide
  obtain ⟨-, hrejected, haliased, -, -, horder, hplaces⟩ := keyed_access hw
  obtain ⟨-, -, hwords⟩ := hplaces least 3
  obtain ⟨hposition, hinsertion⟩ := hwords hleast
  refine ⟨hw, haliased 2 (by decide) (by decide), (hrejected least (by decide)).2.2.2 .zero, hleast,
    hposition, hinsertion, ?_⟩
  exact horder 0 (-1) 0 2 _ _ ⟨by decide, by decide⟩ ⟨by decide, by decide⟩ (by decide)

end Workspace

end ColorAlgebra
