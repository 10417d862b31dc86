import ColorAlgebra.Proofs.Slicing.Deletion

/-!
# Guarded editing

A vector answers an index that is out of its bounds with a fault, and the operations
on a list say nothing of such a fault. Here they are done once more, each step on a
vector that checks the index it is given. No step faults, and the result is the same.
-/

namespace ColorAlgebra.Sequence.Guarded

variable {α : Type}

/-! ## Steps -/

/-- Replaces the element at an index below the length. -/
def write (l : List α) (i : Nat) (x : α) : Except OutOfBounds (List α) :=
  if i < l.length then .ok (l.set i x) else .error ⟨l.length, i⟩

/-- Puts an element in at an index that is at most the length. -/
def insertAt (l : List α) (i : Nat) (x : α) : Except OutOfBounds (List α) :=
  if i ≤ l.length then .ok (l.insertIdx i x) else .error ⟨l.length, i⟩

/-- Takes out the element at an index below the length. -/
def removeAt (l : List α) (i : Nat) : Except OutOfBounds (α × List α) :=
  match l[i]? with
  | some x => .ok (x, l.eraseIdx i)
  | none => .error ⟨l.length, i⟩

/-- Puts values in the place of those from `a` up to `b`, which must come in this order
and be at most the length. -/
def replaceRange (l : List α) (a b : Nat) (values : List α) : Except OutOfBounds (List α) :=
  if b < a then .error ⟨b, a⟩
  else if l.length < b then .error ⟨l.length, b⟩
  else .ok (l.take a ++ values ++ l.drop b)

/-- Moves the last `k` elements to the front. There must be as many. -/
def turnRight (l : List α) (k : Nat) : Except OutOfBounds (List α) :=
  if k ≤ l.length then .ok (l.drop (l.length - k) ++ l.take (l.length - k))
  else .error ⟨l.length, k⟩

/-! ## Operations -/

def get? (l : List α) (key : Key) : Except OutOfBounds (Option α) :=
  match key.position? l.length with
  | some k => (index l k).map some
  | none => .ok none

def set (l : List α) (key : Key) (x : α) : Except OutOfBounds (Except Error (List α)) :=
  match key.position? l.length with
  | some k => (write l k x).map .ok
  | none => .ok (.error (.indexOutOfRange key l.length))

def insert (l : List α) (key : Key) (x : α) : Except OutOfBounds (List α) :=
  insertAt l (key.insertionPoint l.length) x

def pop? (l : List α) (key : Key) : Except OutOfBounds (Option (α × List α)) :=
  match key.position? l.length with
  | some k => (removeAt l k).map some
  | none => .ok none

def removeFirst? (l : List α) (test : α → Bool) : Except OutOfBounds (Option (List α)) :=
  match l.findIdx? test with
  | some k => (removeAt l k).map fun taken => some taken.2
  | none => .ok none

def extract (l : List α) (s : Slice) : Except OutOfBounds (Except Error (List α)) :=
  match select l s with
  | .ok sel => (sel.positions.mapM (index l)).map .ok
  | .error e => .ok (.error e)

def assign (l : List α) (s : Slice) (values : List α) :
    Except OutOfBounds (Except Error (List α)) :=
  match select l s with
  | .error e => .ok (.error e)
  | .ok sel =>
    match sel.span? with
    | some (a, b) => (replaceRange l a b values).map .ok
    | none =>
      if sel.remaining = values.length then
        ((sel.positions.zip values).foldlM (fun l pv => write l pv.1 pv.2) l).map .ok
      else .ok (.error (.lengthMismatch sel.remaining values.length))

/-- The elements whose flags are down. There must be a flag for each element. -/
def retain (raised : List Bool) (pos : Nat) : List α → Except OutOfBounds (List α)
  | [] => .ok []
  | x :: rest => do
    let flag ← index raised pos
    let kept ← retain raised (pos + 1) rest
    return if flag then kept else x :: kept

def delete (l : List α) (s : Slice) : Except OutOfBounds (Except Error (List α)) :=
  match select l s with
  | .error e => .ok (.error e)
  | .ok sel =>
    match sel.span? with
    | some (a, b) => (replaceRange l a b []).map .ok
    | none => do
      let raised ← sel.positions.foldlM (fun raised p => write raised p true)
        (List.replicate l.length false)
      (retain raised 0 l).map .ok

/-- The places to move are a remainder with the sign of the dividend, taken from the
length if that is negative. -/
def rotate (l : List α) (places : Int) : Except OutOfBounds (List α) :=
  if l.length = 0 then .ok l
  else
    let places := places.tmod l.length
    turnRight l (if places < 0 then places + l.length else places).toNat

/-! ## Steps within the bounds -/

theorem index_of_lt {l : List α} {i : Nat} (h : i < l.length) : index l i = .ok l[i] := by
  unfold index
  rw [List.getElem?_eq_getElem h]

theorem write_of_lt {l : List α} {i : Nat} (h : i < l.length) (x : α) :
    write l i x = .ok (l.set i x) := if_pos h

theorem removeAt_of_getElem? {l : List α} {i : Nat} {x : α} (h : l[i]? = some x) :
    removeAt l i = .ok (x, l.eraseIdx i) := by
  unfold removeAt
  rw [h]

theorem replaceRange_of_le {l : List α} {a b : Nat} (hab : a ≤ b) (hb : b ≤ l.length)
    (values : List α) : replaceRange l a b values = .ok (l.take a ++ values ++ l.drop b) := by
  unfold replaceRange
  rw [if_neg (Nat.not_lt.mpr hab), if_neg (Nat.not_lt.mpr hb)]

/-- Reading at positions that are below the length. -/
theorem mapM_index {l : List α} {positions : List Nat} (h : ∀ p ∈ positions, p < l.length) :
    positions.mapM (index l) = .ok (gather l positions) := by
  induction positions with
  | nil => rfl
  | cons p rest ih =>
    have hp : p < l.length := h p List.mem_cons_self
    have hgather : gather l (p :: rest) = l[p] :: gather l rest :=
      List.filterMap_cons_some (List.getElem?_eq_getElem hp)
    rw [List.mapM_cons, index_of_lt hp, ih fun q hq => h q (List.mem_cons_of_mem p hq), hgather]
    rfl

/-- Writing at positions that are below the length. No write changes the length, so
those that follow are within the bounds as well. -/
theorem foldlM_write {β : Type} (place : β → Nat) (value : β → α) {items : List β} {l : List α}
    (h : ∀ item ∈ items, place item < l.length) :
    items.foldlM (fun l item => write l (place item) (value item)) l =
      .ok (items.foldl (fun l item => l.set (place item) (value item)) l) := by
  induction items generalizing l with
  | nil => rfl
  | cons item rest ih =>
    have hrest : ∀ other ∈ rest, place other < (l.set (place item) (value item)).length := by
      intro other hother
      rw [List.length_set]
      exact h other (List.mem_cons_of_mem item hother)
    rw [List.foldlM_cons, write_of_lt (h item List.mem_cons_self), List.foldl_cons]
    exact ih hrest

theorem retain_eq {raised : List Bool} {l : List α} {pos : Nat}
    (h : pos + l.length ≤ raised.length) :
    retain raised pos l = .ok (Sequence.retain raised pos l) := by
  induction l generalizing pos with
  | nil => rfl
  | cons x rest ih =>
    have hlen : pos + 1 + rest.length ≤ raised.length := by
      rw [List.length_cons] at h
      omega
    have hpos : pos < raised.length := by omega
    unfold retain Sequence.retain
    rw [index_of_lt hpos, ih hlen, List.getElem?_eq_getElem hpos]
    cases raised[pos] <;> rfl

/-! ## Operations within the bounds -/

theorem get?_eq (l : List α) (key : Key) : get? l key = .ok (Sequence.get? l key) := by
  unfold get? Sequence.get?
  cases h : key.position? l.length with
  | none => rfl
  | some k =>
    have hk := Key.position?_lt h
    dsimp only
    rw [index_of_lt hk, Option.bind_some, List.getElem?_eq_getElem hk]
    rfl

theorem set_eq (l : List α) (key : Key) (x : α) : set l key x = .ok (Sequence.set l key x) := by
  unfold set Sequence.set
  cases h : key.position? l.length with
  | none => rfl
  | some k =>
    dsimp only
    rw [write_of_lt (Key.position?_lt h)]
    rfl

theorem insert_eq (l : List α) (key : Key) (x : α) :
    insert l key x = .ok (Sequence.insert l key x) :=
  if_pos (key.insertionPoint_le l.length)

theorem pop?_eq (l : List α) (key : Key) : pop? l key = .ok (Sequence.pop? l key) := by
  unfold pop? Sequence.pop?
  cases h : key.position? l.length with
  | none => rfl
  | some k =>
    have hk := List.getElem?_eq_getElem (Key.position?_lt h)
    dsimp only
    rw [removeAt_of_getElem? hk, Option.bind_some, hk]
    rfl

theorem removeFirst?_eq (l : List α) (test : α → Bool) :
    removeFirst? l test = .ok (Sequence.removeFirst? l test) := by
  unfold removeFirst? Sequence.removeFirst?
  cases h : l.findIdx? test with
  | none => rfl
  | some k =>
    obtain ⟨hk, -⟩ := List.findIdx?_eq_some_iff_getElem.mp h
    dsimp only
    rw [removeAt_of_getElem? (List.getElem?_eq_getElem hk)]
    rfl

theorem extract_eq (l : List α) (s : Slice) : extract l s = .ok (Sequence.extract l s) := by
  unfold extract Sequence.extract
  cases h : select l s with
  | error e => rfl
  | ok sel =>
    have hlt : ∀ p ∈ sel.positions, p < l.length :=
      fun p hp => Slice.positions_lt (resolve_of_select h) hp
    dsimp only
    rw [mapM_index hlt]
    rfl

theorem assign_eq (l : List α) (s : Slice) (values : List α) :
    assign l s values = .ok (Sequence.assign l s values) := by
  unfold assign Sequence.assign
  cases h : select l s with
  | error e => rfl
  | ok sel =>
    have hres := resolve_of_select h
    dsimp only
    cases hspan : sel.span? with
    | some ab =>
      obtain ⟨a, b⟩ := ab
      obtain ⟨hab, hb⟩ := Slice.span?_bounds hres hspan
      dsimp only
      rw [replaceRange_of_le hab hb]
      rfl
    | none =>
      dsimp only
      split
      · have hlt : ∀ pv ∈ sel.positions.zip values, pv.1 < l.length :=
          fun pv hpv => Slice.positions_lt hres (List.of_mem_zip hpv).1
        rw [foldlM_write Prod.fst Prod.snd hlt]
        rfl
      · rfl

theorem length_flags (length : Nat) (positions : List Nat) :
    (flags length positions).length = length := by
  have hset : ∀ raised : List Bool,
      (positions.foldl (fun raised p => raised.set p true) raised).length = raised.length := by
    induction positions with
    | nil => exact fun _ => rfl
    | cons p rest ih =>
      intro raised
      rw [List.foldl_cons, ih, List.length_set]
  exact (hset _).trans List.length_replicate

theorem delete_eq (l : List α) (s : Slice) : delete l s = .ok (Sequence.delete l s) := by
  unfold delete Sequence.delete
  cases h : select l s with
  | error e => rfl
  | ok sel =>
    have hres := resolve_of_select h
    dsimp only [Except.map]
    cases hspan : sel.span? with
    | some ab =>
      obtain ⟨a, b⟩ := ab
      obtain ⟨hab, hb⟩ := Slice.span?_bounds hres hspan
      dsimp only
      rw [replaceRange_of_le hab hb, List.append_nil]
    | none =>
      have hlt : ∀ p ∈ sel.positions, p < (List.replicate l.length false).length := by
        intro p hp
        rw [List.length_replicate]
        exact Slice.positions_lt hres hp
      have hflags : sel.positions.foldlM (fun raised p => write raised p true)
          (List.replicate l.length false) = .ok (flags l.length sel.positions) :=
        foldlM_write id (fun _ => true) hlt
      have hretain : retain (flags l.length sel.positions) 0 l = .ok (without l sel.positions) :=
        retain_eq (Nat.le_of_eq (by rw [length_flags, Nat.zero_add]))
      dsimp only
      rw [hflags]
      show Except.map Except.ok (retain (flags l.length sel.positions) 0 l) = _
      rw [hretain]
      rfl

/-- A remainder that is moved up if it is negative is the one that is not negative. -/
theorem tmod_moved_up (places : Int) {length : Int} (h : 0 < length) :
    (if places.tmod length < 0 then places.tmod length + length else places.tmod length) =
      places % length := by
  have hlow := Int.emod_nonneg places (Int.ne_of_gt h)
  have hhigh := Int.emod_lt_of_pos places h
  have habs : (length.natAbs : Int) = length := Int.natAbs_of_nonneg (Int.le_of_lt h)
  rw [Int.tmod_eq_emod]
  split <;> split <;> omega

theorem rotate_eq (l : List α) (places : Int) : rotate l places = .ok (Sequence.rotate l places) := by
  unfold rotate
  by_cases h : l.length = 0
  · rw [if_pos h, List.eq_nil_of_length_eq_zero h, rotate_nil]
  · have hpos : 0 < l.length := Nat.pos_of_ne_zero h
    have hlt := turn_lt hpos places
    rw [if_neg h]
    dsimp only
    rw [tmod_moved_up places (Int.natCast_pos.mpr hpos)]
    exact if_pos (Nat.le_of_lt hlt)

end ColorAlgebra.Sequence.Guarded
