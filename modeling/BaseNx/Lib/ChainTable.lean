import Mathlib.Data.List.Chain
import Mathlib.Data.List.Perm.Basic
import Mathlib.Data.List.Nodup

/-!
# Disjoint chains in a table of successors

A table `next` gives every cell a value: the cell that follows it in its chain, a value that ends
the chain, or zero for a cell in no chain. `Chains next ends valid files` says that the lists
`files` are chains of the table, that no cell is in two of them or twice in one, and that every
other cell is free. A free cell can be put at the end of a chain and the first cell of a chain can
be freed.
-/

namespace BaseNx.Lib

open List

variable {next next' : Nat → Nat} {ends valid : Nat → Prop} {chain : List Nat}
  {rest files : List (List Nat)}

/-- The cells of `chain` follow one another in the table, and the last has an end value. -/
structure Runs (next : Nat → Nat) (ends : Nat → Prop) (chain : List Nat) : Prop where
  linked : chain.IsChain fun a b => next a = b
  last : ∀ c ∈ chain.getLast?, ends (next c)

section

variable (h : Runs next ends chain)
include h

theorem Runs.congr (heq : ∀ c ∈ chain, next' c = next c) : Runs next' ends chain := by
  refine ⟨?_, fun c hc => ?_⟩
  · rw [isChain_iff_getElem]
    intro i hi
    rw [heq _ (getElem_mem _)]
    exact isChain_iff_getElem.1 h.linked i hi
  · rw [heq c (mem_of_getLast? hc)]
    exact h.last c hc

theorem Runs.next_getElem {i : Nat} (hi : i + 1 < chain.length) : next chain[i] = chain[i + 1] :=
  isChain_iff_getElem.1 h.linked i hi

theorem Runs.ends_getElem {i : Nat} (hi : i + 1 = chain.length) :
    ends (next (chain.get ⟨i, by omega⟩)) := by
  refine h.last _ ?_
  rw [getLast?_eq_getElem?]
  simp [← hi]

end

theorem Runs.tail {a : Nat} (h : Runs next ends (a :: chain)) : Runs next ends chain := by
  refine ⟨h.linked.tail, fun c hc => h.last c ?_⟩
  cases chain with
  | nil => cases hc
  | cons b chain => rwa [getLast?_cons_cons]

/-- A chain with one more cell at its end. -/
theorem Runs.concat {c : Nat} (h : chain.IsChain fun a b => next a = b)
    (hlast : ∀ a ∈ chain.getLast?, next a = c) (hc : ends (next c)) :
    Runs next ends (chain ++ [c]) := by
  refine ⟨isChain_append.2 ⟨h, isChain_singleton c, fun a ha b hb => ?_⟩, fun b hb => ?_⟩
  · cases hb
    exact hlast a ha
  · rw [getLast?_concat] at hb
    cases hb
    exact hc

structure Chains (next : Nat → Nat) (ends valid : Nat → Prop) (files : List (List Nat)) : Prop where
  inside : ∀ c ∈ files.flatten, valid c
  runs : ∀ chain ∈ files, Runs next ends chain
  nodup : files.flatten.Nodup
  free : ∀ c, valid c → c ∉ files.flatten → next c = 0

theorem Chains.perm {files' : List (List Nat)} (h : Chains next ends valid files)
    (hp : files.Perm files') :
    Chains next ends valid files' where
  inside c hc := h.inside c (hp.flatten.mem_iff.2 hc)
  runs chain hc := h.runs chain (hp.mem_iff.2 hc)
  nodup := hp.flatten.nodup_iff.1 h.nodup
  free c hv hc := h.free c hv fun hmem => hc (hp.flatten.mem_iff.1 hmem)

theorem Chains.congr (h : Chains next ends valid files) (heq : ∀ c, valid c → next' c = next c) :
    Chains next' ends valid files where
  inside := h.inside
  runs chain hc := (h.runs chain hc).congr fun c hmem =>
    heq c (h.inside c (mem_flatten.2 ⟨chain, hc, hmem⟩))
  nodup := h.nodup
  free c hv hc := (heq c hv).trans (h.free c hv hc)

theorem chains_nil_cons : Chains next ends valid ([] :: files) ↔ Chains next ends valid files := by
  constructor
  · intro h
    exact ⟨by simpa using h.inside, (forall_mem_cons.1 h.runs).2,
      by simpa using h.nodup, by simpa using h.free⟩
  · intro h
    refine ⟨by simpa using h.inside,
      fun chain hc => ?_, by simpa using h.nodup, by simpa using h.free⟩
    rcases mem_cons.1 hc with rfl | hc
    · exact ⟨isChain_nil, by simp⟩
    · exact h.runs chain hc

/-- A cell in a chain is not free. -/
theorem Chains.next_ne_zero (h : Chains next ends valid files) (hv : ¬ valid 0) (he : ¬ ends 0)
    {c : Nat} (hc : c ∈ files.flatten) : next c ≠ 0 := by
  obtain ⟨chain, hmem, hcc⟩ := mem_flatten.1 hc
  obtain ⟨i, hi, rfl⟩ := getElem_of_mem hcc
  have hruns := h.runs chain hmem
  by_cases hlast : i + 1 < chain.length
  · rw [hruns.next_getElem hlast]
    intro h0
    exact hv (h0 ▸ h.inside _ (mem_flatten.2 ⟨chain, hmem, getElem_mem hlast⟩))
  · intro h0
    exact he (h0 ▸ hruns.ends_getElem (by omega : i + 1 = chain.length))

section
variable (hv : ¬ valid 0) (he : ¬ ends 0)
include hv he

/-- A free cell goes to the end of a chain. -/
theorem Chains.concat (h : Chains next ends valid (chain :: rest)) {c : Nat} (hc : valid c)
    (hfree : next c = 0) (hlast : ∀ a ∈ chain.getLast?, next' a = c) (hend : ends (next' c))
    (hother : ∀ a, valid a → a ∉ chain.getLast? → a ≠ c → next' a = next a) :
    Chains next' ends valid ((chain ++ [c]) :: rest) := by
  have hnew : c ∉ (chain :: rest).flatten := fun hmem => h.next_ne_zero hv he hmem hfree
  have hnodup := h.nodup
  rw [flatten_cons] at hnew hnodup
  have hcr : c ∉ rest.flatten := fun hmem => hnew (mem_append_right _ hmem)
  have hcc : c ∉ chain := fun hmem => hnew (mem_append_left _ hmem)
  have hdisj := disjoint_of_nodup_append hnodup
  have hmemv : ∀ a ∈ chain, valid a := fun a ha => h.inside a (by simp [ha])
  refine ⟨fun a ha => ?_, fun l hl => ?_, ?_, fun a hav ha => ?_⟩
  · rw [flatten_cons, append_assoc] at ha
    rcases mem_append.1 ha with ha | ha
    · exact hmemv a ha
    · rcases mem_append.1 ha with ha | ha
      · rwa [mem_singleton.1 ha]
      · exact h.inside a (by rw [flatten_cons]; exact mem_append_right _ ha)
  · rcases mem_cons.1 hl with rfl | hl
    · have hlinked := (h.runs chain mem_cons_self).linked
      refine Runs.concat ?_ hlast hend
      rw [isChain_iff_getElem] at hlinked ⊢
      intro i hi
      -- a cell with a successor in the chain is not its last one
      have hnl : chain[i] ∉ chain.getLast? := by
        rw [getLast?_eq_getElem?, getElem?_eq_getElem (by omega)]
        intro heq
        have := (nodup_append.1 hnodup).1.getElem_inj_iff.1 (Option.some.inj heq)
        omega
      rw [hother _ (hmemv _ (getElem_mem _)) hnl fun heq => hcc (heq ▸ getElem_mem _)]
      exact hlinked i hi
    · refine (h.runs l (mem_cons_of_mem _ hl)).congr fun a ha => ?_
      have hmem : a ∈ rest.flatten := mem_flatten.2 ⟨l, hl, ha⟩
      exact hother a (h.inside a (by rw [flatten_cons]; exact mem_append_right _ hmem))
        (fun hin => hdisj (mem_of_getLast? hin) hmem) fun heq => hcr (heq ▸ hmem)
  · rw [flatten_cons, append_assoc, singleton_append]
    exact (nodup_middle.2 (nodup_cons.2 ⟨by simpa using hnew, hnodup⟩))
  · rw [flatten_cons, append_assoc] at ha
    simp only [mem_append, mem_singleton, not_or] at ha
    obtain ⟨hac, hne, har⟩ := ha
    rw [hother a hav (fun hin => hac (mem_of_getLast? hin)) hne]
    exact h.free a hav (by simp [hac, har])

omit hv he in
/-- The first cell of a chain is freed. -/
theorem Chains.uncons {a : Nat} (h : Chains next ends valid ((a :: chain) :: rest))
    (hzero : next' a = 0)
    (hother : ∀ b, valid b → b ≠ a → next' b = next b) :
    Chains next' ends valid (chain :: rest) := by
  have hnodup := h.nodup
  rw [flatten_cons, cons_append, nodup_cons] at hnodup
  have hvalid : ∀ b ∈ (chain :: rest).flatten, valid b := fun b hb =>
    h.inside b (by rw [flatten_cons, cons_append]; exact mem_cons_of_mem _ hb)
  have hkeep : ∀ b ∈ (chain :: rest).flatten, next' b = next b := fun b hb =>
    hother b (hvalid b hb) fun heq => hnodup.1 (heq ▸ hb)
  refine ⟨hvalid, fun l hl => ?_, hnodup.2, fun b hbv hb => ?_⟩
  · have hruns : Runs next ends l := by
      rcases mem_cons.1 hl with rfl | hl
      · exact (h.runs _ mem_cons_self).tail
      · exact h.runs l (mem_cons_of_mem _ hl)
    exact hruns.congr fun b hb => hkeep b (mem_flatten.2 ⟨l, hl, hb⟩)
  · by_cases heq : b = a
    · rw [heq, hzero]
    · rw [hother b hbv heq]
      refine h.free b hbv ?_
      rw [flatten_cons, cons_append, mem_cons, not_or]
      exact ⟨heq, hb⟩

end

end BaseNx.Lib
