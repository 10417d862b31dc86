import ColorAlgebra.Proofs.Combining.Arithmetic
import ColorAlgebra.Proofs.Combining.Elementwise
import ColorAlgebra.Proofs.Comparing.Extremes

/-!
# Limits

Raising a palette to lower limits and then lowering it to upper ones moves every channel into an
interval. A number within it stays, one past an end becomes that end, and a NaN becomes the lower
one, because the first step passes it over. The limits may come as one color for all or as one
color for each. Only for NaNs does it matter which of the two steps comes first.
-/

namespace ColorAlgebra

namespace Binary

variable {f : Format} {s : Bool} {x y z low high : Binary f}

/-! ## Order -/

theorem ordered_not (x y : Binary f) (s : Bool) : x.ordered (!s) y = y.ordered s x := by
  cases s <;> rfl

theorem equal_trans (hxy : x.equal y = true) (hyz : y.equal z = true) : x.equal z = true := by
  have hzy := (equal_comm z y).trans hyz
  have hyx := (equal_comm y x).trans hxy
  exact equal_of_ordered (s := false) (ordered_trans (ordered_of_equal hxy) (ordered_of_equal hyz))
    (ordered_trans (ordered_of_equal hzy) (ordered_of_equal hyx))

theorem atMost_total (hx : x.isNaN = false) (hy : y.isNaN = false) :
    x.atMost y = true ∨ y.atMost x = true := by
  cases h : x.less y with
  | true => exact .inl (ordered_of_less h)
  | false => exact .inr (ordered_of_not_less hx hy h)

/-! ## Values in an interval -/

/-- `y` is `x` moved into the interval from `low` to `high`. -/
structure Clamps (low high x y : Binary f) : Prop where
  above : low.atMost y = true
  below : y.atMost high = true
  missing : x.isNaN = true → y.equal low = true
  inside : low.atMost x = true → x.atMost high = true → y.equal x = true
  pastLow : x.atMost low = true → y.equal low = true
  pastHigh : high.atMost x = true → y.equal high = true

namespace Clamps

/-- Nothing but the sign of a zero is left open. -/
theorem equal (hy : Clamps low high x y) (hz : Clamps low high x z) : y.equal z = true := by
  have hends := isNaN_of_ordered (s := false) hy.above
  have hend := isNaN_of_ordered (s := false) hy.below
  have hback : ∀ {w : Binary f}, z.equal w = true → w.equal z = true :=
    fun h => (equal_comm _ z).trans h
  cases hx : x.isNaN with
  | true => exact equal_trans (hy.missing hx) (hback (hz.missing hx))
  | false =>
    rcases atMost_total hends.1 hx with hlow | hlow
    · rcases atMost_total hx hend.2 with hhigh | hhigh
      · exact equal_trans (hy.inside hlow hhigh) (hback (hz.inside hlow hhigh))
      · exact equal_trans (hy.pastHigh hhigh) (hback (hz.pastHigh hhigh))
    · exact equal_trans (hy.pastLow hlow) (hback (hz.pastLow hlow))

/-- A value that was moved into the interval is not moved again. -/
theorem again (hy : Clamps low high x y) (hz : Clamps low high y z) : z.equal y = true :=
  hz.inside hy.above hy.below

end Clamps

/-- A number is moved if the value lies in the interval and is the number, or the end that the
number is past. -/
theorem clamps_of_moved (hx : x.isNaN = false) (hlow : low.atMost y = true)
    (hhigh : y.atMost high = true)
    (hmoved : y.equal x = true ∨ y.equal low = true ∧ x.atMost low = true ∨
      y.equal high = true ∧ high.atMost x = true) : Clamps low high x y := by
  have habove : ∀ {u v : Binary f}, u.equal v = true → v.atMost u = true :=
    fun {u v} h => ordered_of_equal (s := false) ((equal_comm v u).trans h)
  refine ⟨hlow, hhigh, fun hnan => ?_, fun hin hin' => ?_, fun hunder => ?_, fun hover => ?_⟩
  · rw [hx] at hnan
    cases hnan
  · rcases hmoved with h | ⟨h, hpast⟩ | ⟨h, hpast⟩
    · exact h
    · exact equal_trans h (equal_of_ordered (s := false) hin hpast)
    · exact equal_trans h (equal_of_ordered (s := false) hpast hin')
  · rcases hmoved with h | ⟨h, -⟩ | ⟨h, hpast⟩
    · exact equal_trans h (equal_of_ordered (s := false) hunder (ordered_trans hlow
        (ordered_of_equal h)))
    · exact h
    · exact equal_of_ordered (s := false) (ordered_trans (ordered_of_equal h)
        (ordered_trans hpast hunder)) hlow
  · rcases hmoved with h | ⟨h, hpast⟩ | ⟨h, -⟩
    · exact equal_trans h (equal_of_ordered (s := false) (ordered_trans (habove h) hhigh) hover)
    · exact equal_of_ordered (s := false) hhigh (ordered_trans hover
        (ordered_trans hpast (habove h)))
    · exact h

/-- No order holds for a NaN, so that only the lower end is left for it. -/
theorem clamps_of_isNaN (hx : x.isNaN = true) (hlow : low.atMost y = true)
    (hhigh : y.atMost high = true) (hequal : y.equal low = true) : Clamps low high x y := by
  have hnumber : ¬x.isNaN = false := by
    rw [hx]
    exact Bool.noConfusion
  refine ⟨hlow, hhigh, fun _ => hequal, fun hin _ => ?_, fun hunder => ?_, fun hover => ?_⟩
  · exact absurd (isNaN_of_ordered (s := false) hin).2 hnumber
  · exact absurd (isNaN_of_ordered (s := false) hunder).1 hnumber
  · exact absurd (isNaN_of_ordered (s := false) hover).2 hnumber

/-- Two choices in a row, the first away from the direction `s` and the second along it, move a
number into the interval that has `first` on the side of the start. -/
theorem Picks.moved {toward back : Binary f → Binary f → Binary f} {first last : Binary f}
    (htoward : Picks (!s) toward) (hback : Picks s back) (h : first.ordered s last = true)
    (hx : x.isNaN = false) :
    first.ordered s (back (toward x first) last) = true ∧
      (back (toward x first) last).ordered s last = true ∧
      ((back (toward x first) last).equal x = true ∨
        (back (toward x first) last).equal first = true ∧ x.ordered s first = true ∨
        (back (toward x first) last).equal last = true ∧ last.ordered s x = true) := by
  obtain ⟨hfirst, hlast⟩ := isNaN_of_ordered h
  have hmiddle : ∃ m, toward x first = m ∧ m.isNaN = false ∧ first.ordered s m = true ∧
      (m.equal x = true ∨ m.equal first = true ∧ x.ordered s first = true) := by
    rcases htoward.choose x first hx hfirst with ⟨heq, horder⟩ | ⟨heq, horder⟩ <;>
      rw [ordered_not] at horder
    · exact ⟨x, heq, hx, horder, .inl (equal_self hx)⟩
    · exact ⟨first, heq, hfirst, ordered_self hfirst, .inr ⟨equal_self hfirst, horder⟩⟩
  obtain ⟨m, hm, hnumber, hstart, hmoved⟩ := hmiddle
  rw [hm]
  rcases hback.choose m last hnumber hlast with ⟨heq, horder⟩ | ⟨heq, horder⟩ <;> rw [heq]
  · exact ⟨hstart, horder, hmoved.imp_right .inl⟩
  · refine ⟨h, ordered_self hlast, ?_⟩
    rcases hmoved with hsame | ⟨hsame, hpast⟩
    · exact .inr (.inr ⟨equal_self hlast, ordered_trans horder (ordered_of_equal hsame)⟩)
    · -- the interval is a single number
      have hsingle := equal_of_ordered (ordered_trans horder (ordered_of_equal hsame)) h
      exact .inr (.inl ⟨hsingle, hpast⟩)

/-- Raising to the lower end and then lowering to the upper one. -/
theorem clamps_min_max (h : low.atMost high = true) : Clamps low high x ((x.max low).min high) := by
  cases hx : x.isNaN with
  | false =>
    obtain ⟨hlow, hhigh, hmoved⟩ := picks_max.moved (s := false) picks_min h hx
    exact clamps_of_moved hx hlow hhigh hmoved
  | true =>
    obtain ⟨hlow, hhigh⟩ := isNaN_of_ordered (s := false) h
    have hself : low.atMost low = true := ordered_self (s := false) hlow
    rw [picks_max.skip_left x low hx]
    rcases picks_min.choose low high hlow hhigh with ⟨heq, -⟩ | ⟨heq, horder⟩ <;> rw [heq]
    · exact clamps_of_isNaN hx hself h (equal_self hlow)
    · exact clamps_of_isNaN hx h (ordered_self (s := false) hhigh) (equal_of_ordered horder h)

/-- The other way around, which leaves a NaN at the upper end. -/
theorem clamps_max_min (h : low.atMost high = true) (hx : x.isNaN = false) :
    Clamps low high x ((x.min high).max low) := by
  obtain ⟨hhigh, hlow, hmoved⟩ := picks_min.moved (s := true) picks_max h hx
  refine clamps_of_moved hx hlow hhigh (hmoved.imp_right ?_)
  exact Or.symm

/-! ## Narrow values -/

/-- A choice between widened values is one of them, so that narrowing loses nothing. -/
theorem narrow_max (x y : Binary f) :
    ((x.convert .double).max (y.convert .double)).convert f = x.max y := by
  unfold max
  rw [isNaN_widen, isNaN_widen, less_widen]
  simp only [apply_ite (convert f), narrow_widen]

theorem narrow_min (x y : Binary f) :
    ((x.convert .double).min (y.convert .double)).convert f = x.min y := by
  unfold min
  rw [isNaN_widen, isNaN_widen, less_widen]
  simp only [apply_ite (convert f), narrow_widen]

end Binary

/-! ## Colors -/

namespace Color

variable {r : Range} {t : Format}

theorem channel_limitMin (c low : Color r t) (i : Fin 3) :
    (c.limitMin low).channel i = (c.channel i).max (low.channel i) :=
  channel_zipDouble_of_narrow Binary.narrow_max c low i

theorem channel_limitMax (c high : Color r t) (i : Fin 3) :
    (c.limitMax high).channel i = (c.channel i).min (high.channel i) :=
  channel_zipDouble_of_narrow Binary.narrow_min c high i

section
variable {c low high : Color r t} {i : Fin 3}
  (h : (low.channel i).atMost (high.channel i) = true)
include h

theorem clamps_limits : Binary.Clamps (low.channel i) (high.channel i) (c.channel i)
    (((c.limitMin low).limitMax high).channel i) := by
  rw [channel_limitMax, channel_limitMin]
  exact Binary.clamps_min_max h

theorem clamps_limits_swapped (hc : (c.channel i).isNaN = false) :
    Binary.Clamps (low.channel i) (high.channel i) (c.channel i)
      (((c.limitMax high).limitMin low).channel i) := by
  rw [channel_limitMin, channel_limitMax]
  exact Binary.clamps_max_min h hc

end

end Color

/-! ## Operands -/

namespace Operand

variable {r : Range} {t : Format}

/-- The color on the other side at a place. -/
def at? (x : Operand r t) (k : Nat) : Option (Color r t) :=
  match x with
  | all c => some c
  | each cs => cs[k]?

/-- There is one for each of `n` colors, and no more. -/
def Fits (x : Operand r t) (n : Nat) : Prop :=
  match x with
  | all _ => True
  | each cs => cs.length = n

theorem Fits.at? {x : Operand r t} {n k : Nat} (h : x.Fits n) (hk : k < n) :
    ∃ c, x.at? k = some c := by
  cases x with
  | all c => exact ⟨c, rfl⟩
  | each cs => exact ⟨_, List.getElem?_eq_getElem (Nat.lt_of_lt_of_eq hk (Eq.symm h))⟩

end Operand

/-! ## Palettes -/

namespace Palette

variable {r : Range} {t : Format} {p q : Palette r t} {op next : Operation} {x y : Operand r t}

/-- One operation and then another. -/
def combineTwice (p : Palette r t) (op : Operation) (x : Operand r t) (next : Operation)
    (y : Operand r t) : Except Error (Palette r t) := do
  let q ← p.combine op x
  q.combine next y

/-- With operands that fit, an operation gives a color for each. -/
theorem combine_of_fits (op : Operation) (hx : x.Fits p.length) :
    ∃ q, p.combine op x = .ok q ∧ q.length = p.length ∧
      ∀ (k : Nat) (c d : Color r t), p[k]? = some c → x.at? k = some d →
        q[k]? = some (op.apply c d) := by
  cases x with
  | all d =>
    refine ⟨_, rfl, List.length_map _, fun k c d' hc hd => ?_⟩
    cases hd
    rw [List.getElem?_map, hc]
    rfl
  | each xs =>
    refine ⟨_, combine_each_of_length hx, length_combine (combine_each_of_length hx),
      fun k c d hc hd => ?_⟩
    rw [List.getElem?_zipWith, hc, show xs[k]? = some d from hd]

theorem combineTwice_of_fits (op next : Operation) (hx : x.Fits p.length)
    (hy : y.Fits p.length) :
    ∃ q, p.combineTwice op x next y = .ok q ∧ q.length = p.length ∧
      ∀ (k : Nat) (c d e : Color r t), p[k]? = some c → x.at? k = some d → y.at? k = some e →
        q[k]? = some (next.apply (op.apply c d) e) := by
  obtain ⟨m, hm, hlen, hfirst⟩ := combine_of_fits op hx
  rw [← hlen] at hy
  obtain ⟨q, hq, hlen', hnext⟩ := combine_of_fits next hy
  refine ⟨q, ?_, hlen'.trans hlen, fun k c d e hc hd he => hnext k _ e (hfirst k c d hc hd) he⟩
  unfold combineTwice
  rw [hm]
  exact hq

theorem equal_iff_getElem? :
    p.equal q = true ↔
      p.length = q.length ∧ ∀ (k : Nat) (c d : Color r t), p[k]? = some c → q[k]? = some d →
        c.equal d = true := by
  unfold equal
  rw [Bool.and_eq_true, decide_eq_true_iff, List.all_eq_true]
  refine and_congr_right fun hlen => ⟨fun h k c d hc hd => ?_, fun h pair hpair => ?_⟩
  · exact h (c, d) (List.mem_iff_getElem?.mpr ⟨k, List.getElem?_zip_eq_some.mpr ⟨hc, hd⟩⟩)
  · obtain ⟨k, hk⟩ := List.mem_iff_getElem?.mp hpair
    obtain ⟨hc, hd⟩ := List.getElem?_zip_eq_some.mp hk
    exact h k pair.1 pair.2 hc hd

/-- Limits that are in order in every channel move every color into the interval between them. A
second time they change nothing, and taken the other way around they move the colors without a
NaN to the same place. All of this is up to the sign of a zero. -/
theorem limits_clamp (p : Palette r t) (lows highs : Operand r t) (hlows : lows.Fits p.length)
    (hhighs : highs.Fits p.length)
    (h : ∀ (k : Nat) (low high : Color r t), k < p.length → lows.at? k = some low →
      highs.at? k = some high → ∀ i, (low.channel i).atMost (high.channel i) = true) :
    ∃ q, p.combineTwice .limitMin lows .limitMax highs = .ok q ∧ q.length = p.length ∧
      (∀ (k : Nat) (c : Color r t), p[k]? = some c → ∃ low high d,
        lows.at? k = some low ∧ highs.at? k = some high ∧ q[k]? = some d ∧
        ∀ i, Binary.Clamps (low.channel i) (high.channel i) (c.channel i) (d.channel i)) ∧
      (∃ again, q.combineTwice .limitMin lows .limitMax highs = .ok again ∧
        again.equal q = true) ∧
      ∃ back, p.combineTwice .limitMax highs .limitMin lows = .ok back ∧
        back.length = p.length ∧
        ∀ (k : Nat) (c d e : Color r t), p[k]? = some c → q[k]? = some d → back[k]? = some e →
          c.IsNumeric → e.equal d = true := by
  obtain ⟨q, hq, hlen, hmoved⟩ := combineTwice_of_fits .limitMin .limitMax hlows hhighs
  obtain ⟨again, hagain, hlen', hsecond⟩ := combineTwice_of_fits (p := q) .limitMin .limitMax
    (hlen ▸ hlows) (hlen ▸ hhighs)
  obtain ⟨back, hback, hlen'', hother⟩ := combineTwice_of_fits .limitMax .limitMin hhighs hlows
  -- what stands at a place before the first step and after the second
  have hplace : ∀ (k : Nat) (c : Color r t), p[k]? = some c → ∃ low high,
      lows.at? k = some low ∧ highs.at? k = some high ∧
      (∀ i, (low.channel i).atMost (high.channel i) = true) ∧
      q[k]? = some ((c.limitMin low).limitMax high) := by
    intro k c hc
    obtain ⟨hk, -⟩ := List.getElem?_eq_some_iff.mp hc
    obtain ⟨low, hlow⟩ := hlows.at? hk
    obtain ⟨high, hhigh⟩ := hhighs.at? hk
    exact ⟨low, high, hlow, hhigh, h k low high hk hlow hhigh, hmoved k c low high hc hlow hhigh⟩
  refine ⟨q, hq, hlen, fun k c hc => ?_, ⟨again, hagain, ?_⟩, back, hback, hlen'',
    fun k c d e hc hd he hnumeric => ?_⟩
  · obtain ⟨low, high, hlow, hhigh, hle, hd⟩ := hplace k c hc
    exact ⟨low, high, _, hlow, hhigh, hd, fun i => Color.clamps_limits (hle i)⟩
  · refine equal_iff_getElem?.mpr ⟨hlen', fun k e d he hd => ?_⟩
    obtain ⟨hk, -⟩ := List.getElem?_eq_some_iff.mp hd
    obtain ⟨low, high, hlow, hhigh, hle, hd'⟩ := hplace k _ (List.getElem?_eq_getElem (hlen ▸ hk))
    rw [hd] at hd'
    rw [hsecond k d low high hd hlow hhigh] at he
    cases hd'
    cases he
    exact Color.equal_iff_channel.mpr fun i =>
      (Color.clamps_limits (hle i)).again (Color.clamps_limits (hle i))
  · obtain ⟨low, high, hlow, hhigh, hle, hd'⟩ := hplace k c hc
    rw [hd] at hd'
    rw [hother k c high low hc hhigh hlow] at he
    cases hd'
    cases he
    have hnumber := Color.isNumeric_iff_channel.mp hnumeric
    exact Color.equal_iff_channel.mpr fun i =>
      (Color.clamps_limits_swapped (hle i) (hnumber i)).equal (Color.clamps_limits (hle i))

/-- One lower limit for all and an upper one for each: a NaN and minus infinity come to the lower
end, two and infinity to the upper one. -/
theorem limits_clamp_missing :
    let p : Palette .byte .half := [⟨.nan, .infinity true, .ofNat 2⟩, .splat (.infinity false)]
    let lows : Operand .byte .half := .all .zero
    let highs : Operand .byte .half := .each [.splat .one, .splat (.ofNat 3)]
    (lows.Fits p.length ∧ highs.Fits p.length) ∧
      ∃ q, p.combineTwice .limitMin lows .limitMax highs = .ok q ∧
        (∃ d, q[0]? = some d ∧ (d.channel 0).equal .zero = true ∧
          (d.channel 1).equal .zero = true ∧ (d.channel 2).equal .one = true) ∧
        ∃ d, q[1]? = some d ∧ (d.channel 0).equal (.ofNat 3) = true := by
  intro p lows highs
  have horder : ∀ (k : Nat) (low high : Color .byte .half), k < p.length → lows.at? k = some low →
      highs.at? k = some high → ∀ i, (low.channel i).atMost (high.channel i) = true := by
    intro k low high hk hlow hhigh
    obtain rfl : Color.zero = low := Option.some.inj hlow
    have hall : ∀ high ∈ [Color.splat .one, (Color.splat (.ofNat 3) : Color .byte .half)],
        ∀ i, ((Color.zero : Color .byte .half).channel i).atMost (high.channel i) = true := by
      decide +kernel
    exact hall high (List.mem_of_getElem? hhigh)
  have hfits : lows.Fits p.length ∧ highs.Fits p.length := ⟨trivial, Eq.refl 2⟩
  obtain ⟨q, hq, -, hplaces, -, -⟩ := p.limits_clamp lows highs hfits.1 hfits.2 horder
  obtain ⟨_, _, d, hlow, hhigh, hd, hclamps⟩ := hplaces 0 _ rfl
  obtain ⟨_, _, d', hlow', hhigh', hd', hclamps'⟩ := hplaces 1 _ rfl
  obtain rfl := Option.some.inj hlow
  obtain rfl := Option.some.inj hhigh
  obtain rfl := Option.some.inj hlow'
  obtain rfl := Option.some.inj hhigh'
  refine ⟨hfits, q, hq, ⟨d, hd, ?_, ?_, ?_⟩, d', hd', ?_⟩
  · exact (hclamps 0).missing rfl
  · exact (hclamps 1).pastLow (by decide +kernel)
  · have hover := (hclamps 2).pastHigh (by decide +kernel)
    rwa [Color.channel_splat] at hover
  · have hover := (hclamps' 0).pastHigh (by decide +kernel)
    rwa [Color.channel_splat] at hover

end Palette

end ColorAlgebra
