import Mathlib.Data.List.Basic

/-!
# Doubly linked lists

A list of nodes laid out through two link functions: `next` and `prev` are whatever the
memory currently says, and `null` ends the list. `Links` relates consecutive nodes both ways;
`Linked` adds that the last node points to `null`.

The two edits of such a list are taking a node out (`Linked.unlink`) and putting one in
(`Linked.insert`). Both are stated between *two* pairs of link functions, the ones before and
after the edit, so that a client only shows which links its stores changed.
-/

namespace LinkedList

open List

variable {α : Type} {next prev next' prev' : α → α} {null : α}

/-- Consecutive nodes point at each other. -/
def Links (next prev : α → α) : List α → Prop
  | a :: b :: rest => next a = b ∧ prev b = a ∧ Links next prev (b :: rest)
  | _ => True

/-- A null-terminated doubly linked list. -/
def Linked (next prev : α → α) (null : α) (l : List α) : Prop :=
  Links next prev l ∧ ∀ a ∈ l.getLast?, next a = null

theorem links_append (p : α) (post : List α) :
    ∀ pre : List α, Links next prev (pre ++ p :: post) ↔
      Links next prev (pre ++ [p]) ∧ Links next prev (p :: post)
  | [] => by simp [Links]
  | [a] => by simp [Links, and_assoc]
  | a :: b :: pre => by
    have ih := links_append p post (b :: pre)
    simp only [cons_append, Links] at ih ⊢
    rw [ih]
    simp only [and_assoc]

/-- `Links` reads `next` of every node but the last and `prev` of every node but the first. -/
theorem Links.congr : ∀ {l : List α}, Links next prev l → (∀ a ∈ l.dropLast, next' a = next a) →
    (∀ b ∈ l.tail, prev' b = prev b) → Links next' prev' l
  | [], _, _, _ => trivial
  | [_], _, _, _ => trivial
  | a :: b :: rest, ⟨ha, hb, h⟩, hn, hp => by
    refine ⟨(hn a (by simp)).trans ha, (hp b (by simp)).trans hb, h.congr ?_ ?_⟩
    · intro c hc
      exact hn c (by simp only [dropLast_cons_cons, mem_cons]; exact .inr hc)
    · intro c hc
      exact hp c (mem_of_mem_tail hc)

theorem Linked.congr {l : List α} (h : Linked next prev null l) (hn : ∀ a ∈ l, next' a = next a)
    (hp : ∀ b ∈ l.tail, prev' b = prev b) : Linked next' prev' null l := by
  constructor
  · exact h.1.congr (fun a ha => hn a (dropLast_subset l ha)) hp
  · intro a ha
    rw [hn a (mem_of_getLast? ha)]
    exact h.2 a ha

/-- The nodes of an array, each linked to the entry behind it. -/
theorem linked_map_range' {a : Nat → α} : ∀ {n s : Nat},
    (∀ i, s ≤ i → i + 1 < s + n → next (a i) = a (i + 1) ∧ prev (a (i + 1)) = a i) →
    (∀ i, i + 1 = s + n → next (a i) = null) → Linked next prev null ((range' s n).map a)
  | 0, _, _, _ => ⟨trivial, by simp⟩
  | 1, s, _, hlast => ⟨trivial, by simpa using hlast s rfl⟩
  | n + 2, s, hstep, hlast => by
    have ih := linked_map_range' (n := n + 1) (s := s + 1)
      (fun i h1 h2 => hstep i (by omega) (by omega)) (fun i hi => hlast i (by omega))
    obtain ⟨hn, hp⟩ := hstep s (by omega) (by omega)
    refine ⟨⟨hn, hp, ih.1⟩, fun b hb => ih.2 b ?_⟩
    simpa [range'_succ] using hb

/-- Cutting a linked list in front of one of its nodes. -/
theorem linked_append (pre : List α) (p : α) (post : List α) :
    Linked next prev null (pre ++ p :: post) ↔
      Links next prev (pre ++ [p]) ∧ Linked next prev null (p :: post) := by
  simp only [Linked, links_append p post pre, and_assoc, getLast?_append_cons]

variable {post pre : List α} {p : α}

/-- The link out of a node leads to the head of what follows it. -/
theorem Linked.next_eq (h : Linked next prev null (pre ++ p :: post)) :
    next p = post.head?.getD null := by
  obtain ⟨-, hlinks, hlast⟩ := (linked_append pre p post).mp h
  cases post with
  | nil => exact hlast p (by simp)
  | cons q post => exact hlinks.1

/-- The link back from a node leads to the node in front of it. -/
theorem Linked.prev_eq {x : α} (h : Linked next prev null (pre ++ p :: x :: post)) : prev x = p :=
  ((linked_append pre p (x :: post)).mp h).2.1.2.1

theorem Linked.tail (h : Linked next prev null (p :: post)) : Linked next prev null post := by
  cases post with
  | nil => exact ⟨trivial, by simp⟩
  | cons q post => exact ⟨h.1.2.2, by simpa [getLast?_cons_cons] using h.2⟩

/-- Prefixing a node whose link leads to the head of a linked list. -/
theorem linked_cons (h : Linked next prev null post) (hnext : next p = post.head?.getD null)
    (hprev : ∀ q ∈ post.head?, prev q = p) : Linked next prev null (p :: post) := by
  cases post with
  | nil => exact ⟨trivial, by simpa using hnext⟩
  | cons q post =>
    refine ⟨⟨by simpa using hnext, hprev q (by simp), h.1⟩, ?_⟩
    simpa [getLast?_cons_cons] using h.2

variable {x : α}

/-- A linked list survives when the links of its two halves survive and the seam at `p` is
repaired. -/
private theorem Linked.seam {rest : List α} (h : Linked next prev null (pre ++ p :: rest))
    (hn : ∀ a ∈ pre, next' a = next a) (hp : ∀ b, b ∈ pre ∨ b = p → prev' b = prev b)
    (hrest : Linked next' prev' null (p :: post)) : Linked next' prev' null (pre ++ p :: post) := by
  refine (linked_append pre p post).mpr ⟨?_, hrest⟩
  apply ((linked_append pre p rest).mp h).1.congr
  · intro a ha
    exact hn a (by simpa using ha)
  · intro b hb
    exact hp b (by simpa using mem_of_mem_tail hb)

/-- **Take `x` out.** Its predecessor takes over its link and its successor points back at the
predecessor; every other link is kept. -/
theorem Linked.unlink (h : Linked next prev null (pre ++ p :: x :: post))
    (hnext : next' p = next x) (hprev : ∀ q ∈ post.head?, prev' q = p)
    (hn : ∀ a ∈ pre ++ post, next' a = next a)
    (hp : ∀ b ∈ pre ++ p :: post.tail, prev' b = prev b) :
    Linked next' prev' null (pre ++ p :: post) := by
  apply h.seam
  · intro a ha
    exact hn a (by simp [ha])
  · rintro b (hb | rfl)
    · exact hp b (by simp [hb])
    · exact hp b (by simp)
  have hx : Linked next prev null (x :: post) := (((linked_append pre p (x :: post)).mp h).2).tail
  have hkept : Linked next' prev' null post :=
    hx.tail.congr (fun a ha => hn a (by simp [ha])) (fun b hb => hp b (by simp [hb]))
  have hxq : next x = post.head?.getD null :=
    Linked.next_eq (show Linked next prev null ([] ++ x :: post) from hx)
  exact linked_cons hkept (hnext.trans hxq) hprev

/-- **Put `x` in after `p`.** Four links are set and every other one is kept. -/
theorem Linked.insert (h : Linked next prev null (pre ++ p :: post))
    (hpx : next' p = x) (hxp : prev' x = p) (hxq : next' x = post.head?.getD null)
    (hqx : ∀ q ∈ post.head?, prev' q = x) (hn : ∀ a ∈ pre ++ post, next' a = next a)
    (hp : ∀ b ∈ pre ++ p :: post.tail, prev' b = prev b) :
    Linked next' prev' null (pre ++ p :: x :: post) := by
  apply h.seam
  · intro a ha
    exact hn a (by simp [ha])
  · rintro b (hb | rfl)
    · exact hp b (by simp [hb])
    · exact hp b (by simp)
  have hpost : Linked next prev null post := ((linked_append pre p post).mp h).2.tail
  have hkept : Linked next' prev' null post :=
    hpost.congr (fun a ha => hn a (by simp [ha])) (fun b hb => hp b (by simp [hb]))
  exact linked_cons (linked_cons hkept hxq hqx) (by simpa using hpx) (by simpa using hxp)

end LinkedList
