import Mathlib.Data.List.Basic
import Mathlib.Data.List.Pairwise

/-!
# First-match tables

A table of entries, each taking some of the keys and carrying a value; `route` is the value of the first entry
that takes the key. Where no key is taken twice the order of the entries does not matter (`route_perm`). An entry
may be replaced in place by a table of its own (`route_splice`), and a table may be looked up through a change of
keys and values (`route_map`).
-/

namespace FirstMatch

variable {κ β γ ι : Type*}

/-- The keys an entry takes, and its value. -/
abbrev Entry (κ β : Type*) := (κ → Bool) × β

def route (es : List (Entry κ β)) (a : κ) : Option β := (es.find? fun e => e.1 a).map Prod.snd

section
variable {es fs pre sub post : List (Entry κ β)} {e : Entry κ β} {a : κ} {b : β}

theorem route_append (es fs : List (Entry κ β)) (a : κ) : route (es ++ fs) a = (route es a).or (route fs a) := by
  rw [route, route, route, List.find?_append, Option.map_or]

theorem route_cons (e : Entry κ β) (es : List (Entry κ β)) (a : κ) :
    route (e :: es) a = if e.1 a then some e.2 else route es a := by
  rw [route, route, List.find?_cons]
  cases e.1 a <;> rfl

theorem route_eq_none : route es a = none ↔ ∀ e ∈ es, e.1 a = false := by
  simp [route]

/-- No two entries take `a`. -/
def ExclusiveAt (es : List (Entry κ β)) (a : κ) : Prop := es.Pairwise fun e f => ¬ (e.1 a = true ∧ f.1 a = true)

theorem route_eq_some (h : ExclusiveAt es a) : route es a = some b ↔ ∃ e ∈ es, e.1 a = true ∧ e.2 = b := by
  induction es with
  | nil => simp [route]
  | cons e es ih =>
    obtain ⟨he, hes⟩ := List.pairwise_cons.1 h
    rw [route_cons, List.exists_mem_cons_iff]
    split
    · rename_i ha
      rw [Option.some.injEq]
      refine ⟨fun hb => .inl ⟨ha, hb⟩, ?_⟩
      rintro (⟨-, hb⟩ | ⟨f, hf, hfa, -⟩)
      · exact hb
      · exact absurd ⟨ha, hfa⟩ (he f hf)
    · rename_i ha
      rw [ih hes]
      exact (or_iff_right fun h => ha h.1).symm

/-- The order of the entries does not matter to a key that no two of them take. -/
theorem route_perm (h : ExclusiveAt es a) (hp : es.Perm fs) : route es a = route fs a := by
  have hf : ExclusiveAt fs a := hp.pairwise h fun hef => fun hfe => hef hfe.symm
  refine Option.ext fun b => ?_
  rw [route_eq_some h, route_eq_some hf]
  simp only [hp.mem_iff]

/-- A table in the place of one of the entries, which takes its keys alone. -/
theorem route_splice (hpre : e.1 a = true → ∀ f ∈ pre, f.1 a = false) (hsub : ∀ f ∈ sub, f.1 a = true → e.1 a = true)
    (hpost : e.1 a = true → ∀ f ∈ post, f.1 a = false) :
    route (pre ++ sub ++ post) a = if e.1 a then route sub a else route (pre ++ e :: post) a := by
  rw [route_append, route_append, route_append, route_cons]
  split
  · rename_i ha
    rw [route_eq_none.2 (hpre ha), route_eq_none.2 (hpost ha), Option.none_or, Option.or_none]
  · rename_i ha
    have hnone : route sub a = none := route_eq_none.2 fun f hf => Bool.eq_false_iff.2 fun h => ha (hsub f hf h)
    rw [hnone, Option.or_none]

theorem route_entry (hpre : e.1 a = true → ∀ f ∈ pre, f.1 a = false) (ha : e.1 a = true) :
    route (pre ++ e :: post) a = some e.2 := by
  rw [route_append, route_eq_none.2 (hpre ha), Option.none_or, route_cons, if_pos ha]

end

/-- Two tables whose entries take their keys together. -/
theorem route_map {f : ι → Entry κ β} {g : ι → Entry κ γ} {t : β → γ} {a a' : κ} (l : List ι)
    (htake : ∀ i ∈ l, (g i).1 a = (f i).1 a') (hval : ∀ i ∈ l, (f i).1 a' = true → (g i).2 = t (f i).2) :
    route (l.map g) a = (route (l.map f) a').map t := by
  induction l with
  | nil => rfl
  | cons i l ih =>
    rw [List.map_cons, List.map_cons, route_cons, route_cons, htake i List.mem_cons_self]
    split
    · rename_i ha
      rw [Option.map_some, hval i List.mem_cons_self ha]
    · exact ih (fun j hj => htake j (List.mem_cons_of_mem i hj)) fun j hj => hval j (List.mem_cons_of_mem i hj)

end FirstMatch
