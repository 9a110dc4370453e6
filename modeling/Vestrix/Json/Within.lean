/-
# Reading texts of a kind

A reader of JSON takes a text from the front, and what is left over is an end of it.  So what its
hooks see to on texts of a kind that every end of such a text is of too holds of all atoms and keys
of a value that is read from one (`KeepsIn.parse_forall`).
-/

import Vestrix.Json.Grammar
import Vestrix.Json.Literal

namespace Vestrix
namespace Json

open Text Outcome

/-! ### What is left over -/

/-- What follows the digits is in the text. -/
theorem spanDigits_suffix (s : Str) : (spanDigits s).2 <:+ s := by
  fun_induction spanDigits s with
  | case1 c s hdigit ih => exact ih.trans (List.suffix_cons _ _)
  | case2 c s hdigit => exact List.suffix_rfl
  | case3 s hne => exact List.suffix_rfl

/-- What follows a minus is in the text. -/
theorem scanMinus_suffix (s : Str) : (scanMinus s).2 <:+ s := by
  rw [scanMinus.eq_def]
  split
  · split_ifs
    · exact List.suffix_cons _ _
    · exact List.suffix_rfl
  · exact List.suffix_rfl

/-- What follows a sign is in the text. -/
theorem scanSign_suffix (s : Str) : (scanSign s).2 <:+ s := by
  rw [scanSign.eq_def]
  split
  · split_ifs
    · exact List.suffix_cons _ _
    · exact List.suffix_cons _ _
    · exact List.suffix_rfl
  · exact List.suffix_rfl

/-- What follows an integer is in the text. -/
theorem scanInt_suffix {s r : Str} {ds : List Char} (h : scanInt s = some (ds, r)) : r <:+ s := by
  rw [scanInt.eq_def] at h
  split at h
  · split_ifs at h
    · obtain ⟨-, rfl⟩ := Prod.mk.inj (Option.some.inj h)
      exact List.suffix_cons _ _
    · have hspan : (spanDigits _).2 = r := congrArg Prod.snd (Option.some.inj h)
      exact hspan ▸ spanDigits_suffix _
  · cases h

/-- What follows a fraction is in the text. -/
theorem scanFrac_suffix (s : Str) : (scanFrac s).2 <:+ s := by
  rw [scanFrac.eq_def]
  split
  · split_ifs
    · exact (spanDigits_suffix _).trans (List.suffix_cons _ _)
    · exact List.suffix_rfl
  · exact List.suffix_rfl

/-- What follows an exponent is in the text. -/
theorem scanExp_suffix (s : Str) : (scanExp s).2 <:+ s := by
  rw [scanExp.eq_def]
  split
  · dsimp only
    split_ifs
    · exact ((spanDigits_suffix _).trans (scanSign_suffix _)).trans (List.suffix_cons _ _)
    · exact List.suffix_rfl
  · exact List.suffix_rfl

/-- What follows a number is in the text. -/
theorem scanNumber_suffix {s r : Str} {t : NumberToken} (h : scanNumber s = some (t, r)) : r <:+ s := by
  rw [scanNumber] at h
  dsimp only at h
  split at h
  · cases h
  · rename_i int s' hint
    obtain ⟨-, rfl⟩ := Prod.mk.inj (Option.some.inj h)
    exact (scanExp_suffix _).trans ((scanFrac_suffix _).trans
      ((scanInt_suffix hint).trans (scanMinus_suffix s)))

/-- What follows a word is in the text. -/
theorem skipText_suffix {w : List Char} {s r : Str} (h : skipText w s = some r) : r <:+ s := by
  induction w generalizing s with
  | nil => exact Option.some.inj h ▸ List.suffix_rfl
  | cons c w ih =>
    cases s with
    | nil => cases h
    | cons d s =>
      rw [skipText] at h
      split_ifs at h
      exact (ih h).trans (List.suffix_cons _ _)

namespace Grammar

variable {σ α ε : Type} {g : Grammar σ α ε} {T : Str → Prop} {P : α → Prop} {K : σ → Prop}

/-- On texts of a kind the reader keeps a property of atoms and one of keys. -/
structure KeepsIn (g : Grammar σ α ε) (T : Str → Prop) (P : α → Prop) (K : σ → Prop) : Prop where
  tail : ∀ {c s}, T (c :: s) → T s
  atom : ∀ {s a r}, T s → g.readAtom s = .ok (a, r) → P a ∧ T r
  key : ∀ {s k r}, T s → g.readKey s = .ok (k, r) → K k ∧ T r
  insert : ∀ {ms k x ms'}, g.insert ms k x = .ok ms' → ∀ m ∈ ms', m ∈ ms ∨ m = (k, x)

/-- Every atom and every key of a value. -/
abbrev Each (P : α → Prop) (K : σ → Prop) : Json σ α → Prop := Json.Forall P fun ks => ∀ k ∈ ks, K k

/-- What holds of the results of all three readers with some fuel. -/
structure KeepsInWith (g : Grammar σ α ε) (T : Str → Prop) (P : α → Prop) (K : σ → Prop) (fuel : ℕ) :
    Prop where
  value : ∀ {d s v r}, T s → g.parseValue fuel d s = .ok (v, r) → Each P K v ∧ T r
  elements : ∀ {d first s xs r}, T s → g.parseElements fuel d first s = .ok (xs, r) →
    (∀ x ∈ xs, Each P K x) ∧ T r
  members : ∀ {d first ms s ns r}, T s → g.parseMembers fuel d first ms s = .ok (ns, r) →
    (∀ m ∈ ms, K m.1 ∧ Each P K m.2) → (∀ n ∈ ns, K n.1 ∧ Each P K n.2) ∧ T r

namespace KeepsIn

variable (h : g.KeepsIn T P K)

include h

/-- Behind white space the text is of the same kind. -/
theorem skipSpace {s : Str} (hs : T s) : T (skipSpace s) := by
  fun_induction Json.skipSpace s with
  | case1 c s hspace ih => exact ih (h.tail hs)
  | case2 c s hspace => exact hs
  | case3 s hne => exact hs

/-- Behind a character the text is of the same kind. -/
theorem skipChar {c : Char} {s r : Str} (hs : T s) (hskip : skipChar c s = some r) : T r := by
  have hspace := h.skipSpace hs
  rw [Json.skipChar] at hskip
  split at hskip
  · rename_i a s' ha
    split_ifs at hskip
    rw [ha] at hspace
    exact Option.some.inj hskip ▸ h.tail hspace
  · cases hskip

/-- One more step of the parser makes values of the kind of the text. -/
theorem value_step {fuel : ℕ} (ih : KeepsInWith g T P K fuel) {d : ℕ} {s r : Str} {v : Json σ α}
    (hs : T s) (hv : g.parseValue (fuel + 1) d s = .ok (v, r)) : Each P K v ∧ T r := by
  rw [parseValue] at hv
  split at hv
  · rename_i s' hskip
    split at hv
    · cases hv
    · obtain ⟨⟨xs, r'⟩, hxs, heq⟩ := map_eq_ok.1 hv
      obtain ⟨rfl, rfl⟩ := Prod.mk.inj heq
      obtain ⟨hall, hr⟩ := ih.elements (h.skipChar hs hskip) hxs
      exact ⟨.array hall, hr⟩
  · split at hv
    · rename_i s' hskip
      split at hv
      · cases hv
      · obtain ⟨⟨ms, r'⟩, hms, heq⟩ := map_eq_ok.1 hv
        obtain ⟨rfl, rfl⟩ := Prod.mk.inj heq
        obtain ⟨hall, hr⟩ := ih.members (h.skipChar hs hskip) hms fun m hm => absurd hm List.not_mem_nil
        exact ⟨.object (List.forall_mem_map.2 fun m hm => (hall m hm).1) fun m hm => (hall m hm).2, hr⟩
    · obtain ⟨⟨a, r'⟩, ha, heq⟩ := map_eq_ok.1 hv
      obtain ⟨rfl, rfl⟩ := Prod.mk.inj heq
      obtain ⟨ha, hr⟩ := h.atom (h.skipSpace hs) ha
      exact ⟨.atom ha, hr⟩

/-- One more step of the parser makes items of the kind of the text. -/
theorem elements_step {fuel : ℕ} (ih : KeepsInWith g T P K fuel) {d : ℕ} {first : Bool} {s r : Str}
    {xs : List (Json σ α)} (hs : T s) (hxs : g.parseElements (fuel + 1) d first s = .ok (xs, r)) :
    (∀ x ∈ xs, Each P K x) ∧ T r := by
  rw [parseElements] at hxs
  split at hxs
  · rename_i s' hskip
    obtain ⟨rfl, rfl⟩ := Prod.mk.inj (Except.ok.inj hxs)
    exact ⟨fun x hx => absurd hx List.not_mem_nil, h.skipChar hs hskip⟩
  · split at hxs
    · cases hxs
    · rename_i s' hcomma
      have hs' : T s' := by
        split_ifs at hcomma
        · exact Option.some.inj hcomma ▸ hs
        · exact h.skipChar hs hcomma
      split at hxs
      · cases hxs
      · rename_i x s'' hx
        obtain ⟨⟨ys, r'⟩, hys, heq⟩ := map_eq_ok.1 hxs
        obtain ⟨rfl, rfl⟩ := Prod.mk.inj heq
        obtain ⟨hx, hs''⟩ := ih.value hs' hx
        obtain ⟨hall, hr⟩ := ih.elements hs'' hys
        exact ⟨List.forall_mem_cons.2 ⟨hx, hall⟩, hr⟩

/-- One more step of the parser makes members of the kind of the text. -/
theorem members_step {fuel : ℕ} (ih : KeepsInWith g T P K fuel) {d : ℕ} {first : Bool} {s r : Str}
    {ms ns : List (σ × Json σ α)} (hs : T s) (hns : g.parseMembers (fuel + 1) d first ms s = .ok (ns, r))
    (hms : ∀ m ∈ ms, K m.1 ∧ Each P K m.2) : (∀ n ∈ ns, K n.1 ∧ Each P K n.2) ∧ T r := by
  rw [parseMembers] at hns
  split at hns
  · rename_i s' hskip
    obtain ⟨rfl, rfl⟩ := Prod.mk.inj (Except.ok.inj hns)
    exact ⟨hms, h.skipChar hs hskip⟩
  · split at hns
    · cases hns
    · rename_i s₁ hquote
      obtain ⟨s₀, hcomma, hquote⟩ := Option.bind_eq_some_iff.1 hquote
      have hs₀ : T s₀ := by
        split_ifs at hcomma
        · exact Option.some.inj hcomma ▸ hs
        · exact h.skipChar hs hcomma
      split at hns
      · cases hns
      · rename_i k s₂ hkey
        obtain ⟨hk, hs₂⟩ := h.key (h.skipChar hs₀ hquote) hkey
        split at hns
        · cases hns
        · rename_i s₃ hcolon
          split at hns
          · cases hns
          · rename_i x s₄ hx
            obtain ⟨hx, hs₄⟩ := ih.value (h.skipChar hs₂ hcolon) hx
            split at hns
            · cases hns
            · rename_i ms' hms'
              refine ih.members hs₄ hns fun m hm => ?_
              rcases h.insert hms' m hm with hm | rfl
              · exact hms m hm
              · exact ⟨hk, hx⟩

/-- The parser makes values of the kind of the text, whatever its fuel. -/
theorem keepsInWith (fuel : ℕ) : KeepsInWith g T P K fuel := by
  induction fuel with
  | zero => exact ⟨fun _ h => (by cases h), fun _ h => (by cases h), fun _ h => (by cases h)⟩
  | succ fuel ih => exact ⟨h.value_step ih, h.elements_step ih, h.members_step ih⟩

/-- **What the hooks see to holds of all that is read** from a text of the kind. -/
theorem parse_forall {d : ℕ} {s : Str} {v : Json σ α} (hs : T s) (hv : g.parse d s = .ok v) :
    Each P K v := by
  rw [parse] at hv
  split at hv
  · cases hv
  · rename_i v' r hvalue
    split_ifs at hv
    obtain rfl := Except.ok.inj hv
    exact ((h.keepsInWith _).value hs hvalue).1

end KeepsIn

end Grammar
end Json
end Vestrix
