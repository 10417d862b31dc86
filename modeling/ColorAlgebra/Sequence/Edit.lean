import ColorAlgebra.Sequence.Slice

namespace ColorAlgebra.Sequence

variable {α : Type}

/-! ## Keys -/

/-- The element that a key names. -/
def get? (l : List α) (key : Key) : Option α :=
  (key.position? l.length).bind fun k => l[k]?

/-- Changes the element that a key names. -/
def modify? (l : List α) (key : Key) (f : α → α) : Option (List α) :=
  (key.position? l.length).map fun k => l.modify k f

/-- Replaces the element that a key names. -/
def set (l : List α) (key : Key) (x : α) : Except Error (List α) :=
  match key.position? l.length with
  | some k => .ok (l.set k x)
  | none => .error (.indexOutOfRange key l.length)

/-- Puts an element in front of the one that a key names, or at the end that the
key lies past. -/
def insert (l : List α) (key : Key) (x : α) : List α :=
  l.insertIdx (key.insertionPoint l.length) x

/-- Takes the element that a key names out. -/
def pop? (l : List α) (key : Key) : Option (α × List α) :=
  (key.position? l.length).bind fun k => l[k]?.map fun x => (x, l.eraseIdx k)

/-- Takes the last element out. -/
def popLast? (l : List α) : Option (α × List α) :=
  l.getLast?.map fun x => (x, l.dropLast)

/-- Takes the first element that passes a test out. -/
def removeFirst? (l : List α) (test : α → Bool) : Option (List α) :=
  (l.findIdx? test).map fun k => l.eraseIdx k

/-! ## Slices -/

/-- The selection of a slice in a list. -/
def select (l : List α) (s : Slice) : Except Error Selection :=
  match s.resolve l.length with
  | .ok sel => .ok sel
  | .error e => .error (.ofSlice e)

/-- The elements at the selected positions, in the order of the walk. -/
def pick (l : List α) (sel : Selection) : List α :=
  sel.positions.filterMap fun p => l[p]?

/-- The list with the elements at some positions replaced by new ones in turn. -/
def overwrite (l : List α) (positions : List Nat) (values : List α) : List α :=
  (positions.zip values).foldl (fun l pv => l.set pv.1 pv.2) l

/-- One flag for each position, raised at those that are listed. -/
def flags (length : Nat) (positions : List Nat) : List Bool :=
  positions.foldl (fun raised p => raised.set p true) (List.replicate length false)

/-- The elements whose flags are down. The first element has the flag at `pos`. -/
def retain (raised : List Bool) (pos : Nat) : List α → List α
  | [] => []
  | x :: rest =>
    if raised[pos]? = some true then retain raised (pos + 1) rest
    else x :: retain raised (pos + 1) rest

/-- The elements at the positions that are not listed. -/
def without (l : List α) (positions : List Nat) : List α :=
  retain (flags l.length positions) 0 l

/-- The elements that a slice selects. -/
def extract (l : List α) (s : Slice) : Except Error (List α) :=
  (select l s).map (pick l)

/-- Puts values where a slice selects. A run in steps of one may change its
length; any other selection takes exactly as many values as it has positions. -/
def assign (l : List α) (s : Slice) (values : List α) : Except Error (List α) :=
  match select l s with
  | .error e => .error e
  | .ok sel =>
    match sel.span? with
    | some (a, b) => .ok (l.take a ++ values ++ l.drop b)
    | none =>
      if sel.remaining = values.length then .ok (overwrite l sel.positions values)
      else .error (.lengthMismatch sel.remaining values.length)

/-- Takes out what a slice selects. -/
def delete (l : List α) (s : Slice) : Except Error (List α) :=
  (select l s).map fun sel =>
    match sel.span? with
    | some (a, b) => l.take a ++ l.drop b
    | none => without l sel.positions

/-! ## Plain indices -/

/-- The element at an index. -/
def index (l : List α) (i : Nat) : Except OutOfBounds α :=
  match l[i]? with
  | some x => .ok x
  | none => .error ⟨l.length, i⟩

/-- The list with two elements in each other's place. -/
def exchange (l : List α) (i j : Nat) : Except OutOfBounds (List α) :=
  match index l i, index l j with
  | .ok x, .ok y => .ok ((l.set i y).set j x)
  | .error e, _ => .error e
  | _, .error e => .error e

/-! ## Lemmas -/

theorem get?_eq_none_iff {l : List α} {key : Key} :
    get? l key = none ↔ key.position? l.length = none := by
  unfold get?
  cases h : key.position? l.length with
  | none => simp
  | some k => simp [Key.position?_lt h]

theorem length_set {l l' : List α} {key : Key} {x : α} (h : set l key x = .ok l') :
    l'.length = l.length := by
  unfold set at h
  split at h
  · cases h
    exact List.length_set
  · cases h

theorem length_insert (l : List α) (key : Key) (x : α) :
    (insert l key x).length = l.length + 1 := by
  unfold insert
  rw [List.length_insertIdx, if_pos (key.insertionPoint_le l.length)]

theorem length_overwrite (l : List α) (positions : List Nat) (values : List α) :
    (overwrite l positions values).length = l.length := by
  unfold overwrite
  generalize positions.zip values = pairs
  induction pairs generalizing l with
  | nil => rfl
  | cons pv rest ih => simp [ih]

theorem resolve_of_select {l : List α} {s : Slice} {sel : Selection} (h : select l s = .ok sel) :
    s.resolve l.length = .ok sel := by
  unfold select at h
  split at h
  · next hr => rw [hr, Except.ok.inj h]
  · cases h

/-- Extraction meets an element at every selected position. -/
theorem length_pick {l : List α} {s : Slice} {sel : Selection} (h : select l s = .ok sel) :
    (pick l sel).length = sel.remaining := by
  have hlt : ∀ p ∈ sel.positions, p < l.length :=
    fun p hp => Slice.positions_lt (resolve_of_select h) hp
  rw [← sel.length_positions, pick]
  generalize sel.positions = ps at hlt
  induction ps with
  | nil => rfl
  | cons p rest ih =>
    have hp := hlt p List.mem_cons_self
    simp [List.getElem?_eq_getElem hp, ih fun q hq => hlt q (List.mem_cons_of_mem _ hq)]

end ColorAlgebra.Sequence
