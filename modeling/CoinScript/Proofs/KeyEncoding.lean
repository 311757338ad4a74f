import CoinScript.Context
import CoinScript.Proofs.FieldRoot

/-! # Encodings of public keys

A key in a script is written as the abscissa of its point with the parity of the ordinate, as both
coordinates, or as the hybrid of the two. A library for the curve reads the first two; with it, each
of the three is read as the point that it stands for. Besides, the abscissa with the tag `05` is
read as the point with the even ordinate, and nothing else is read as a key.
-/
namespace CoinScript.PublicKey

/-- The bytes stand for the point. -/
inductive Encodes : Bytes → Curve.Point → Prop
  | compressed {tag : UInt8} {x : Bytes} {point : Curve.Point} :
      tag = 2 ∨ tag = 3 → x.length = 32 → Bytes.toNatBE x = point.x →
      point.y % 2 = tag.toNat % 2 → point.OnCurve → Encodes (tag :: x) point
  | full {x y : Bytes} {point : Curve.Point} :
      x.length = 32 → y.length = 32 → Bytes.toNatBE x = point.x → Bytes.toNatBE y = point.y →
      point.OnCurve → Encodes (4 :: (x ++ y)) point
  | hybrid {tag : UInt8} {body : Bytes} {point : Curve.Point} :
      tag = 6 ∨ tag = 7 → Encodes (4 :: body) point →
      body.getLast?.map (· % 2) = some (tag % 2) → Encodes (tag :: body) point

/-- The bytes have one of the forms of a key, with coordinates from the curve. Of the compressed
forms only the abscissa is asked for, since both parities occur with it. -/
inductive Admitted : Bytes → Prop
  | compressed {tag : UInt8} {x : Bytes} {y : Nat} :
      tag = 2 ∨ tag = 3 → x.length = 32 → (Curve.Point.mk (Bytes.toNatBE x) y).OnCurve →
      Admitted (tag :: x)
  | full {x y : Bytes} :
      x.length = 32 → y.length = 32 →
      (Curve.Point.mk (Bytes.toNatBE x) (Bytes.toNatBE y)).OnCurve → Admitted (4 :: (x ++ y))
  | hybrid {tag : UInt8} {body : Bytes} :
      tag = 6 ∨ tag = 7 → Admitted (4 :: body) →
      body.getLast?.map (· % 2) = some (tag % 2) → Admitted (tag :: body)

/-- The library reads the compressed and the full form as what they stand for, the tag `05` like
`02`, and nothing else. -/
structure ReadsForms (curve : Curve.Library) : Prop where
  plain : ∀ tag body point, tag = 2 ∨ tag = 3 ∨ tag = 4 →
    (curve.readPoint (tag :: body) = some point ↔ Encodes (tag :: body) point)
  compact : ∀ body, curve.readPoint (5 :: body) = curve.readPoint (2 :: body)
  other : ∀ tag body, tag ≠ 2 → tag ≠ 3 → tag ≠ 4 → tag ≠ 5 → curve.readPoint (tag :: body) = none

variable {tag : UInt8} {body b : Bytes} {point : Curve.Point} {key : PublicKey}

section Forms

theorem odd_eq_iff (htag : tag = 2 ∨ tag = 3) (y : Nat) :
    (y % 2 == 1) = (tag == 3) ↔ y % 2 = tag.toNat % 2 := by
  rcases htag with rfl | rfl
  · simp
  · simp

theorem encodes_full_iff :
    Encodes (4 :: body) point ↔ body.length = 64 ∧ Curve.ofCoordinates? body = some point := by
  constructor
  · intro h
    cases h with
    | compressed htag => rcases htag with htag | htag <;> cases htag
    | hybrid htag => rcases htag with htag | htag <;> cases htag
    | @full x y _ hx hy hxvalue hyvalue hcurve =>
      have hsplit : Bytes.split? 32 (x ++ y) = some (x, y) := hx ▸ Bytes.split?_append x y
      refine ⟨by rw [List.length_append, hx, hy], ?_⟩
      rw [Curve.ofCoordinates?, hsplit]
      exact Curve.point?_eq_some_iff.mpr ⟨by rw [hxvalue, hyvalue], hcurve⟩
  · rintro ⟨hlength, hpoint⟩
    rw [Curve.ofCoordinates?] at hpoint
    split at hpoint
    · rename_i x y hsplit
      obtain ⟨rfl, hx⟩ := Bytes.split?_eq_some hsplit
      obtain ⟨rfl, hcurve⟩ := Curve.point?_eq_some_iff.mp hpoint
      rw [List.length_append, hx] at hlength
      exact .full hx (by omega) rfl rfl hcurve
    · cases hpoint

theorem encodes_compressed_iff (htag : tag = 2 ∨ tag = 3) :
    Encodes (tag :: body) point ↔
      body.length = 32 ∧ Curve.lift? (Bytes.toNatBE body) (tag == 3) = some point := by
  rw [Curve.lift?_eq_some_iff]
  constructor
  · intro h
    cases h with
    | compressed _ hlength hx hparity hcurve =>
      exact ⟨hlength, hx.symm, hcurve, (odd_eq_iff htag _).mpr hparity⟩
    | full => rcases htag with htag | htag <;> cases htag
    | hybrid hother =>
      rcases htag with rfl | rfl <;> rcases hother with hother | hother <;> cases hother
  · rintro ⟨hlength, hx, hcurve, hparity⟩
    exact .compressed htag hlength hx.symm ((odd_eq_iff htag _).mp hparity) hcurve

theorem encodes_hybrid_iff (htag : tag = 6 ∨ tag = 7) :
    Encodes (tag :: body) point ↔
      Encodes (4 :: body) point ∧ body.getLast?.map (· % 2) = some (tag % 2) := by
  constructor
  · intro h
    cases h with
    | compressed hother =>
      rcases htag with rfl | rfl <;> rcases hother with hother | hother <;> cases hother
    | full => rcases htag with htag | htag <;> cases htag
    | hybrid _ hfull hlast => exact ⟨hfull, hlast⟩
  · rintro ⟨hfull, hlast⟩
    exact .hybrid htag hfull hlast

theorem Encodes.tag_cases (h : Encodes (tag :: body) point) :
    (tag = 2 ∨ tag = 3) ∨ tag = 4 ∨ tag = 6 ∨ tag = 7 := by
  cases h with
  | compressed htag => exact .inl htag
  | full => exact .inr (.inl rfl)
  | hybrid htag => exact .inr (.inr htag)

theorem admitted_iff : Admitted b ↔ ∃ point, Encodes b point := by
  constructor
  · intro h
    induction h with
    | @compressed tag x y htag hlength hcurve =>
      obtain ⟨y, hcurve, hparity⟩ := hcurve.exists_parity (tag == 3)
      exact ⟨_, .compressed htag hlength rfl ((odd_eq_iff htag y).mp hparity) hcurve⟩
    | full hx hy hcurve => exact ⟨_, .full hx hy rfl rfl hcurve⟩
    | hybrid htag _ hlast ih =>
      obtain ⟨point, hpoint⟩ := ih
      exact ⟨point, .hybrid htag hpoint hlast⟩
  · rintro ⟨point, h⟩
    induction h with
    | @compressed tag x point htag hlength hx _ hcurve =>
      obtain ⟨_, y⟩ := point
      obtain rfl : _ = _ := hx
      exact .compressed htag hlength hcurve
    | @full x y point hlength hlength' hx hy hcurve =>
      obtain ⟨_, _⟩ := point
      obtain rfl : _ = _ := hx
      obtain rfl : _ = _ := hy
      exact .full hlength hlength' hcurve
    | hybrid htag _ hlast ih => exact .hybrid htag ih hlast

theorem ofTagged?_short (htag : tag = 2 ∨ tag = 3 ∨ tag = 5) : Curve.ofTagged? tag body =
    if body.length = 32 then Curve.lift? (Bytes.toNatBE body) (tag == 3) else none := by
  have hne : tag ≠ 4 := by rcases htag with rfl | rfl | rfl <;> decide
  simp only [Curve.ofTagged?, htag, and_true, hne, and_false, ↓reduceIte]

theorem ofTagged?_full : Curve.ofTagged? 4 body =
    if body.length = 64 then Curve.ofCoordinates? body else none := by
  simp [Curve.ofTagged?]

/-- The arithmetic of the curve finds the points that the forms stand for. -/
theorem standard_readsForms : ReadsForms .standard where
  plain tag body point htag := by
    change Curve.ofTagged? tag body = some point ↔ _
    rcases htag with rfl | rfl | rfl
    · rw [ofTagged?_short (.inl rfl), encodes_compressed_iff (.inl rfl),
        Option.ite_none_right_eq_some]
    · rw [ofTagged?_short (.inr (.inl rfl)), encodes_compressed_iff (.inr rfl),
        Option.ite_none_right_eq_some]
    · rw [ofTagged?_full, encodes_full_iff, Option.ite_none_right_eq_some]
  compact body := by
    change Curve.ofTagged? 5 body = Curve.ofTagged? 2 body
    rw [ofTagged?_short (.inr (.inr rfl)), ofTagged?_short (.inl rfl)]
    rfl
  other tag body h2 h3 h4 h5 := by
    change Curve.ofTagged? tag body = none
    simp only [Curve.ofTagged?, h2, h3, h4, h5, or_self, and_false, ↓reduceIte]

end Forms

section Reading

/-- The abscissa alone, with a tag of its own, for the point with the even ordinate. -/
def Compact (b : Bytes) (point : Curve.Point) : Prop := ∃ x, b = 5 :: x ∧ Encodes (2 :: x) point

variable {curve : Curve.Library} (hcurve : ReadsForms curve)

theorem ofPlain_eq_ok_iff : ofPlain curve b = .ok key ↔ curve.readPoint b = some key.point := by
  obtain ⟨point⟩ := key
  rw [ofPlain]
  cases curve.readPoint b <;> simp

theorem ofBytes_plain (h : ¬(body.length = 64 ∧ (tag = 6 ∨ tag = 7))) :
    ofBytes (tag :: body) curve = ofPlain curve (tag :: body) :=
  if_neg h

theorem ofBytes_hybrid (htag : tag = 6 ∨ tag = 7) (hlength : body.length = 64) :
    ofBytes (tag :: body) curve =
      if body.getLast?.map (· % 2) = some (tag % 2) then ofBytes (4 :: body) curve
      else .error .hybridParity := by
  have hne : body ≠ [] := List.ne_nil_of_length_pos (by omega)
  have hlast : body.getLast? = some (body.getLast hne) := List.getLast?_eq_some_getLast hne
  have hfull : ofBytes (4 :: body) curve = ofPlain curve (4 :: body) := ofBytes_plain (by simp)
  rw [hfull, ofBytes, if_pos ⟨hlength, htag⟩, List.getLastD_eq_getLast?, hlast,
    Option.getD_some, Option.map_some, ite_not]
  exact if_congr (by rw [Option.some.injEq, eq_comm]) rfl rfl

include hcurve

theorem readPoint_eq_some_iff : curve.readPoint (tag :: body) = some point ↔
    (tag = 2 ∨ tag = 3 ∨ tag = 4) ∧ Encodes (tag :: body) point ∨
      tag = 5 ∧ Encodes (2 :: body) point := by
  by_cases hplain : tag = 2 ∨ tag = 3 ∨ tag = 4
  · have hother : tag ≠ 5 := by rcases hplain with rfl | rfl | rfl <;> decide
    simp only [hcurve.plain tag body point hplain, hplain, hother, true_and, false_and, or_false]
  · by_cases hcompact : tag = 5
    · rw [hcompact, hcurve.compact, hcurve.plain 2 body point (.inl rfl)]
      simp
    · simp only [not_or] at hplain
      rw [hcurve.other tag body hplain.1 hplain.2.1 hplain.2.2 hcompact]
      simp [hplain, hcompact]

theorem ofBytes_eq_ok_iff :
    ofBytes b curve = .ok key ↔ Encodes b key.point ∨ Compact b key.point := by
  match b with
  | [] =>
    refine iff_of_false (by simp [ofBytes]) ?_
    rintro (h | ⟨x, hx, -⟩)
    · cases h
    · cases hx
  | tag :: body =>
    have hcompact : Compact (tag :: body) key.point ↔ tag = 5 ∧ Encodes (2 :: body) key.point := by
      constructor
      · rintro ⟨x, hx, h⟩
        cases hx
        exact ⟨rfl, h⟩
      · rintro ⟨rfl, h⟩
        exact ⟨body, rfl, h⟩
    have hfull : ofBytes (4 :: body) curve = .ok key ↔ Encodes (4 :: body) key.point := by
      rw [ofBytes_plain (by simp), ofPlain_eq_ok_iff, readPoint_eq_some_iff hcurve]
      simp
    by_cases hhybrid : body.length = 64 ∧ (tag = 6 ∨ tag = 7)
    · obtain ⟨hlength, htag⟩ := hhybrid
      have hother : tag ≠ 5 := by rcases htag with rfl | rfl <;> decide
      rw [ofBytes_hybrid htag hlength, hcompact, encodes_hybrid_iff htag]
      split_ifs with hlast
      · simp [hfull, hlast, hother]
      · simp [hlast, hother]
    · rw [ofBytes_plain hhybrid, ofPlain_eq_ok_iff, readPoint_eq_some_iff hcurve, hcompact]
      refine or_congr_left ⟨And.right, fun h => ⟨?_, h⟩⟩
      rcases h.tag_cases with (htag | htag) | htag | htag
      · exact .inl htag
      · exact .inr (.inl htag)
      · exact .inr (.inr htag)
      · have hlength := (encodes_full_iff.mp ((encodes_hybrid_iff htag).mp h).1).1
        exact absurd ⟨hlength, htag⟩ hhybrid

end Reading

theorem check_of_unreadable {curve : Curve.Library} (h : ∀ key, ofBytes b curve ≠ .ok key)
    (hash : SignatureHash) (sig : Bytes) (code : Script) (version : SigVersion) :
    hash.check curve sig b code version = false := by
  have hquery : SignatureQuery.of? sig b curve = none := by
    unfold SignatureQuery.of?
    split
    · rfl
    · split
      · rename_i key _ hkey _
        exact absurd hkey (h key)
      · rfl
  rw [SignatureHash.check, hquery]

/-- With a library that reads the plain forms, a byte string is read as a key when it has one of the
admitted forms, or the abscissa of the curve under the tag `05`; the key is the point that the form
stands for, and a hybrid is read as what both its coordinates are. Under any other key no signature
verifies. -/
theorem readable_keys (curve : Curve.Library) (hcurve : ReadsForms curve) (b : Bytes) :
    ((∃ key, ofBytes b curve = .ok key) ↔
      Admitted b ∨ ∃ x, b = 5 :: x ∧ Admitted (2 :: x)) ∧
    (∀ key, ofBytes b curve = .ok key → Encodes b key.point ∨ Compact b key.point) ∧
    (∀ tag body, b = tag :: body → tag = 6 ∨ tag = 7 → Admitted b →
      ofBytes b curve = ofBytes (4 :: body) curve) ∧
    (¬Admitted b → (∀ x, b = 5 :: x → ¬Admitted (2 :: x)) →
      ∀ (hash : SignatureHash) (sig : Bytes) (code : Script) (version : SigVersion),
        hash.check curve sig b code version = false) := by
  have hreadable : (∃ key, ofBytes b curve = .ok key) ↔
      Admitted b ∨ ∃ x, b = 5 :: x ∧ Admitted (2 :: x) := by
    simp only [ofBytes_eq_ok_iff hcurve, admitted_iff, Compact]
    constructor
    · rintro ⟨key, h | ⟨x, hx, h⟩⟩
      · exact .inl ⟨_, h⟩
      · exact .inr ⟨x, hx, _, h⟩
    · rintro (⟨point, h⟩ | ⟨x, hx, point, h⟩)
      · exact ⟨⟨point⟩, .inl h⟩
      · exact ⟨⟨point⟩, .inr ⟨x, hx, h⟩⟩
  refine ⟨hreadable, fun key => (ofBytes_eq_ok_iff hcurve).mp, ?_, fun hforms hcompact => ?_⟩
  · rintro tag body rfl htag hadmitted
    obtain ⟨point, h⟩ := admitted_iff.mp hadmitted
    obtain ⟨hfull, hlast⟩ := (encodes_hybrid_iff htag).mp h
    rw [ofBytes_hybrid htag (encodes_full_iff.mp hfull).1, if_pos hlast]
  · apply check_of_unreadable
    intro key hkey
    rcases hreadable.mp ⟨key, hkey⟩ with h | ⟨x, hx, h⟩
    · exact hforms h
    · exact hcompact x hx h

/-- The generator as a hybrid. Its ordinate is even, so with the other tag nothing verifies. -/
theorem readable_keys_hybrid :
    let body := Bytes.ofNatBE 32 Curve.generator.x ++ Bytes.ofNatBE 32 Curve.generator.y
    Admitted (6 :: body) ∧ ofBytes (6 :: body) = .ok ⟨Curve.generator⟩ ∧ ¬Admitted (7 :: body) ∧
    ∀ (hash : SignatureHash) (sig : Bytes) (code : Script) (version : SigVersion),
      hash.check .standard sig (7 :: body) code version = false := by
  intro body
  have hcurve : Curve.generator.OnCurve := ⟨by decide, by decide, by decide +kernel⟩
  have hfull : Encodes (4 :: body) Curve.generator :=
    .full rfl rfl (by decide +kernel) (by decide +kernel) hcurve
  have heven : Admitted (6 :: body) :=
    admitted_iff.mpr ⟨_, .hybrid (.inl rfl) hfull (by decide +kernel)⟩
  have hodd : ¬Admitted (7 :: body) := by
    intro h
    obtain ⟨point, hpoint⟩ := admitted_iff.mp h
    have hlast := ((encodes_hybrid_iff (.inr rfl)).mp hpoint).2
    exact absurd hlast (by decide +kernel)
  obtain ⟨-, -, hsame, -⟩ := readable_keys .standard standard_readsForms (6 :: body)
  obtain ⟨-, -, -, hcheck⟩ := readable_keys .standard standard_readsForms (7 :: body)
  have hread : ofBytes (4 :: body) = .ok ⟨Curve.generator⟩ :=
    (ofBytes_eq_ok_iff standard_readsForms).mpr (.inl hfull)
  refine ⟨heven, (hsame 6 body rfl (.inl rfl) heven).trans hread, hodd, ?_⟩
  exact hcheck hodd fun x hx => by cases hx

/-- The abscissa of the generator under the tag `05` is read as the generator, though it has none
of the admitted forms. -/
theorem compact_key_readable :
    let b := 5 :: Bytes.ofNatBE 32 Curve.generator.x
    ofBytes b = .ok ⟨Curve.generator⟩ ∧ ¬Admitted b := by
  intro b
  refine ⟨by decide +kernel, fun h => ?_⟩
  obtain ⟨point, hpoint⟩ := admitted_iff.mp h
  rcases hpoint.tag_cases with (htag | htag) | htag | htag | htag <;> cases htag

end CoinScript.PublicKey
