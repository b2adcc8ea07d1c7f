import Nglibc.Resolv.NsNameMessage

/-! What `___ns_name_pton` stores is a valid name. -/

namespace Nglibc.Resolv

open Memory

/-- What `___ns_name_pton` has written: whole labels up to the one at `label`. -/
structure Pton.Wrote (dstsiz : Nat) (p : Pton) (done : List Label) : Prop where
  labels : p.dst.slice 0 p.label = done.flatMap Label.wire
  started : p.label + 1 ≤ p.bp
  inside : p.bp ≤ dstsiz ∨ p.bp = p.label + 1

/-- Only the first label may be empty at its end. -/
def Pton.Opened (p : Pton) (escaped : Bool) (text : List UInt8) : Prop :=
  p.bp = p.label + 1 → p.label ≠ 0
    → escaped = true ∨ ∃ c rest, text = c :: rest ∧ c.toNat ≠ '.'.toNat

theorem land_small : ∀ n < 256, n &&& nsCmprsflgs = 0 → n < 64 := by
  decide +kernel

variable {r : Nat × Memory UInt8} {done : List Label}

theorem Pton.Wrote.putByte {p p' : Pton} {c : UInt8} (wrote : p.Wrote maxcdname done)
    (put : p.putByte maxcdname c = .ok p')
    : p'.Wrote maxcdname done ∧ p'.bp = p.bp + 1 ∧ p'.label = p.label := by
  have started := wrote.started
  unfold Pton.putByte at put
  split at put
  · cases put
  · cases put
    refine ⟨⟨?_, by simp only; omega, by simp only; omega⟩, rfl, rfl⟩
    rw [slice_store_disjoint (.inl (by simp only; omega)), wrote.labels]

/-- A label that ends is whole: the length of it is stored, and it is empty only as the root. -/
theorem Pton.Wrote.putLength {p p' : Pton} {c : Nat} (wrote : p.Wrote maxcdname done)
    (put : p.putLength maxcdname = .ok (c, p'))
    : p'.bp = p.bp ∧ p'.label = p.label ∧ c = p.bp - p.label - 1 ∧ p.bp ≤ maxcdname
      ∧ (c = 0 → p.label = 0 → HoldsName p'.dst 0 [])
      ∧ (c ≠ 0 → ∃ l : Label, p'.dst.slice 0 p.bp = (done ++ [l]).flatMap Label.wire) := by
  have inside := wrote.inside
  unfold Pton.putLength at put
  simp only at put
  split at put
  · cases put
  · rename_i flags
    split at put
    · cases put
    · cases put
      have bound : p.bp ≤ maxcdname := by omega
      have size : maxcdname = 255 := rfl
      refine ⟨rfl, rfl, rfl, bound, ?_, ?_⟩
      · intro empty first
        have stored : p.dst.store 0 [UInt8.ofNat 0] 0 = 0 := by
          rfl
        rwa [empty, first]
      · intro nonempty
        have short := land_small (p.bp - p.label - 1) (by omega) (not_not.mp flags)
        have length : (p.dst.slice (p.label + 1) (p.bp - p.label - 1)).length
            = p.bp - p.label - 1 := length_slice
        let l : Label := ⟨p.dst.slice (p.label + 1) (p.bp - p.label - 1), by omega⟩
        have size : p.bp = p.label + (p.bp - p.label - 1 + 1) := by omega
        refine ⟨l, ?_⟩
        rw [List.flatMap_append, List.flatMap_singleton, size, slice_add, Nat.zero_add,
          slice_store_disjoint (.inl (by omega)), wrote.labels, slice_store_front]
        simp only [l, Label.wire, length]
        congr 3
        omega

/-- The terminator makes whole labels a name. -/
theorem Pton.finish_name {p : Pton} {c result : Nat} (root : c = 0 → HoldsName p.dst 0 [])
    (whole : c ≠ 0 → ∃ done : List Label, p.dst.slice 0 p.bp = done.flatMap Label.wire)
    (finished : p.finish maxcdname result c = .ok r)
    : ValidName r.2 := by
  unfold Pton.finish at finished
  by_cases empty : c = 0
  · rw [if_neg (not_not.mpr empty)] at finished
    simp only [bind, Except.bind] at finished
    split at finished
    · cases finished
    · cases finished
      exact ⟨[], root empty, by decide⟩
  · rw [if_pos empty, Pton.putByte] at finished
    split at finished
    · cases finished
    · simp only [bind, Except.bind] at finished
      split at finished
      · cases finished
      · rename_i short
        cases finished
        obtain ⟨done, labels⟩ := whole empty
        have length : p.bp = (done.flatMap Label.wire).length := by
          rw [← labels, length_slice]
        have size : (wire done).length = p.bp + 1 := by
          rw [wire, List.length_append, ← length, List.length_singleton]
        refine ⟨done, holdsName_iff.mpr ?_, by omega⟩
        rw [size, slice_add, slice_store_disjoint (.inl (by omega)), labels, Nat.zero_add,
          slice_store_front, slice_zero, wire]

theorem Pton.Wrote.ended {p p' : Pton} {c result : Nat} (wrote : p.Wrote maxcdname done)
    (first : p.bp = p.label + 1 → p.label = 0) (put : p.putLength maxcdname = .ok (c, p'))
    (run : p'.finish maxcdname result c = .ok r) : ValidName r.2 := by
  obtain ⟨moved, label, size, inside, root, whole⟩ := wrote.putLength put
  have started := wrote.started
  refine finish_name (fun empty => root empty (first (by omega))) ?_ run
  intro nonempty
  obtain ⟨l, labels⟩ := whole nonempty
  exact ⟨done ++ [l], by rw [moved, labels]⟩

theorem Pton.Wrote.put {p : Pton} {c : UInt8} {rest : List UInt8} (wrote : p.Wrote maxcdname done)
    (step : ∀ {p : Pton}, p.Wrote maxcdname done → p.Opened false rest
      → ptonLoop maxcdname rest false p = .ok r → ValidName r.2)
    (run : (p.putByte maxcdname c >>= ptonLoop maxcdname rest false) = .ok r)
    : ValidName r.2 := by
  cases stored : p.putByte maxcdname c with
  | error e =>
    rw [stored] at run
    cases run
  | ok p' =>
    rw [stored] at run
    obtain ⟨wrote', moved, label⟩ := wrote.putByte stored
    have started := wrote.started
    exact step wrote' (fun fresh => by omega) run

/-- The loop over the text keeps to whole labels. By induction on the length of the text. -/
theorem ptonLoop_name {text : List UInt8} {escaped : Bool} {p : Pton} (wrote : p.Wrote maxcdname done)
    (opened : p.Opened escaped text) (run : ptonLoop maxcdname text escaped p = .ok r)
    : ValidName r.2 := by
  induction length : text.length using Nat.strong_induction_on
    generalizing text escaped p done with
  | _ k ih =>
    cases text with
    | nil =>
      cases escaped with
      | true => cases run
      | false =>
        rw [ptonLoop] at run
        have first : p.bp = p.label + 1 → p.label = 0 := by
          intro fresh
          by_contra later
          obtain escapes | ⟨_, _, more, _⟩ := opened fresh later
          · cases escapes
          · cases more
        cases put : p.putLength maxcdname with
        | error e =>
          rw [put] at run
          cases run
        | ok ended =>
          rw [put] at run
          exact wrote.ended first put run
    | cons c rest =>
      rw [List.length_cons] at length
      cases escaped with
      | true =>
        unfold ptonLoop at run
        split at run
        · rcases rest with _ | ⟨d, _ | ⟨e, rest⟩⟩
          · cases run
          · cases run
          · rw [List.length_cons, List.length_cons] at length
            simp only at run
            split at run
            · cases run
            · split at run
              · cases run
              · exact wrote.put (fun wrote opened run => ih _ (by omega) wrote opened run rfl) run
        · exact wrote.put (fun wrote opened run => ih _ (by omega) wrote opened run rfl) run
      | false =>
        rw [ptonLoop] at run
        split at run
        · exact ih _ (by omega) wrote (fun _ _ => .inl rfl) run rfl
        · split at run
          · rename_i dot
            have first : p.bp = p.label + 1 → p.label = 0 := by
              intro fresh
              by_contra later
              obtain escapes | ⟨_, _, more, noDot⟩ := opened fresh later
              · cases escapes
              · cases more
                exact noDot dot
            cases put : p.putLength maxcdname with
            | error e =>
              rw [put] at run
              cases run
            | ok ended =>
              rw [put] at run
              cases rest with
              | nil => exact wrote.ended first put run
              | cons next rest =>
                obtain ⟨n, p'⟩ := ended
                obtain ⟨moved, label, size, inside, root, whole⟩ := wrote.putLength put
                simp only [bind, Except.bind] at run
                split at run
                · cases run
                · rename_i proper
                  obtain ⟨nonempty, noDot⟩ := not_or.mp proper
                  obtain ⟨l, labels⟩ := whole nonempty
                  have wrote' : Pton.Wrote maxcdname ⟨p'.dst, p'.bp, p'.bp + 1⟩ (done ++ [l]) :=
                    ⟨by rw [← labels, moved], le_rfl, .inr rfl⟩
                  exact ih _ (by omega) wrote' (fun _ _ => .inr ⟨next, rest, rfl, noDot⟩) run rfl
          · exact wrote.put (fun wrote opened run => ih _ (by omega) wrote opened run rfl) run

theorem nsNamePton_name {text : List UInt8} {tmp : Memory UInt8}
    (run : nsNamePton text tmp maxcdname = .ok r) : ValidName r.2 := by
  have wrote : Pton.Wrote maxcdname ⟨tmp, 0, 1⟩ [] := ⟨rfl, Nat.le_refl 1, .inr rfl⟩
  exact ptonLoop_name wrote (fun _ zero => absurd rfl zero) run

end Nglibc.Resolv
