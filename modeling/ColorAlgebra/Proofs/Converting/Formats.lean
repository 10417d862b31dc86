import ColorAlgebra.Proofs.Binary.Ordered
import ColorAlgebra.Proofs.Combining.Arithmetic

namespace ColorAlgebra

/-- The longer significand goes with the wider range. -/
theorem Format.coarserThan_iff {f g : Format} : f.CoarserThan g ↔ f.precision < g.precision := by
  refine ⟨CoarserThan.precision, fun h => ?_⟩
  refine ⟨h, ?_, ?_⟩ <;> revert h <;> cases f <;> cases g <;> decide

/-! ## Values -/

namespace Binary

variable {f g : Format}

theorem convert_widen (g : Format) (x : Binary f) :
    (x.convert .double).convert g = x.convert g := by
  cases x with
  | nan => rfl
  | infinity s => rfl
  | finite s n hn =>
    rw [convert_finite hn.widen]
    rfl

/-- A value is the same double whether it is widened at once or in two steps. -/
theorem widen_convert (h : f.CoarserThan g) (x : Binary f) :
    (x.convert g).convert .double = x.convert .double := by
  cases x with
  | nan => rfl
  | infinity s => rfl
  | finite s n hn => rw [convert_finite (h.representable hn), convert_finite hn.widen,
      convert_finite hn.widen]

theorem narrow_convert (h : f.CoarserThan g) (x : Binary f) : (x.convert g).convert f = x := by
  rw [← convert_widen, widen_convert h, narrow_widen]

/-- No conversion takes the sign from a number, a zero or an infinity. -/
theorem isNegative_convert (x : Binary f) : (x.convert g).isNegative = x.isNegative := by
  cases x with
  | nan => rfl
  | infinity s => rfl
  | finite s n hn => exact isNegative_round s n 1

theorem keepsOrder_convert : KeepsOrder (convert g : Binary f → Binary g) :=
  keepsOrder_of_finite (fun _ => rfl) fun _ _ hx hy hle =>
    (isRounding_convert hx).atMost (isRounding_convert hy) hle

end Binary

/-! ## Colors -/

namespace Color

variable {r : Range} {t u : Format}

theorem channel_convertChannel (c : Color r t) (u : Format) (i : Fin 3) :
    (c.convertChannel u).channel i = (c.channel i).convert u := by
  rw [← Binary.convert_widen]
  revert i
  exact forall_index.mpr ⟨rfl, rfl, rfl⟩

theorem convertChannel_self (c : Color r t) : c.convertChannel t = c :=
  eq_of_channel fun i => by rw [channel_convertChannel, Binary.convert_self]

/-- A color in a wider format holds the same doubles. -/
theorem toDoubles_convertChannel (h : t.CoarserThan u) (c : Color r t) :
    (c.convertChannel u).toDoubles = c.toDoubles := by
  unfold convertChannel ofDoubles toDoubles Triple.map
  simp only [Binary.convert_widen, Binary.widen_convert h]

/-- The doubles are all that a conversion looks at. -/
theorem convertChannel_congr {c : Color r t} {d : Color r u} (h : d.toDoubles = c.toDoubles)
    (v : Format) : d.convertChannel v = c.convertChannel v := by
  unfold convertChannel
  rw [h]

/-- The colors that `c` becomes in formats wider than its own. A later one may be narrower than
the one before. -/
inductive Widened (c : Color r t) : (u : Format) → Color r u → Prop
  | self : Widened c t c
  | convert {u v : Format} {d : Color r u} :
      Widened c u d → t.CoarserThan v → Widened c v (d.convertChannel v)

namespace Widened

variable {c : Color r t} {d : Color r u}

theorem toDoubles_eq (h : c.Widened u d) : d.toDoubles = c.toDoubles := by
  induction h with
  | self => rfl
  | convert _ hwider ih => rw [convertChannel_congr ih, toDoubles_convertChannel hwider]

theorem convertChannel_eq (h : c.Widened u d) : d.convertChannel t = c := by
  rw [convertChannel_congr h.toDoubles_eq, convertChannel_self]

end Widened

/-- From a format to a wider one nothing is lost: over any wider formats, a color keeps its
doubles, and back in its own format it is the same color. From the wider format to the narrower
one, the channels keep their order and their signs; each becomes the value nearest to it, or the
infinity on its side, and stays what it is if the narrower format has it. -/
theorem convertChannel_faithful (h : t.CoarserThan u) :
    (∀ c : Color r t, c.Widened u (c.convertChannel u)) ∧
    (∀ (c : Color r t) (d : Color r u), c.Widened u d →
      d.convertChannel t = c ∧ d.toDoubles = c.toDoubles) ∧
    (∀ (a b : Color r u) (i : Fin 3), (a.channel i).atMost (b.channel i) = true →
      ((a.convertChannel t).channel i).atMost ((b.convertChannel t).channel i) = true) ∧
    ∀ (a : Color r u) (i : Fin 3),
      ((a.channel i).isFinite = true →
        ((a.convertChannel t).channel i).CorrectlyRounded (a.channel i).value) ∧
      (∀ s, a.channel i = .infinity s → (a.convertChannel t).channel i = .infinity s) ∧
      ((a.convertChannel t).channel i).isNegative = (a.channel i).isNegative ∧
      ∀ x : Binary t, x.convert u = a.channel i → (a.convertChannel t).channel i = x := by
  refine ⟨fun c => .convert .self h, fun c d hd => ⟨hd.convertChannel_eq, hd.toDoubles_eq⟩,
    fun a b i hab => ?_, fun a i => ?_⟩
  · rw [channel_convertChannel, channel_convertChannel]
    exact Binary.keepsOrder_convert _ _ hab
  · rw [channel_convertChannel]
    refine ⟨fun hfinite => (Binary.isRounding_convert hfinite).correctlyRounded, fun s hs => ?_,
      Binary.isNegative_convert _, fun x hx => ?_⟩
    · rw [hs]
      rfl
    · rw [← hx, Binary.narrow_convert h]

/-- The least positive half, a negative zero and an infinity come back from a single by way of a
double, and past the greatest half there is an infinity. -/
theorem convertChannel_faithful_half :
    Format.half.CoarserThan .single ∧
      (let c : Color .byte .half := ⟨.finite false (2 ^ 1050) (by decide +kernel),
        .signedZero true, .infinity true⟩
      ((c.convertChannel .double).convertChannel .single).convertChannel .half = c) ∧
      ((splat (.ofNat 65536) : Color .byte .single).convertChannel .half).channel 0 =
        .infinity false := by
  have hcoarser : Format.half.CoarserThan .single := Format.coarserThan_iff.mpr (by decide)
  have hdouble : Format.half.CoarserThan .double := Format.coarserThan_iff.mpr (by decide)
  obtain ⟨-, hback, -, hnearest⟩ := convertChannel_faithful (r := .byte) hcoarser
  refine ⟨hcoarser, (hback _ _ (.convert (.convert .self hdouble) hcoarser)).1, ?_⟩
  have hfits : 65536 ≤ 2 ^ Format.single.precision := by decide
  obtain ⟨hround, -⟩ := hnearest (splat (.ofNat 65536)) 0
  simp only [channel_splat, Binary.value_ofNat hfits] at hround
  have hlimit : Format.half.limit ≤ |((65536 : Nat) : ℚ)| :=
    le_trans (Format.limit_le .half) (by norm_num [Format.top, unitExponent])
  rw [(hround (Binary.isFinite_ofNat hfits)).overflow hlimit, decide_eq_false (by norm_num)]

end Color

end ColorAlgebra
