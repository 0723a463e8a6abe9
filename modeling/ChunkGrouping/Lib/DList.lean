import Mathlib.Tactic

/-!
# Doubly linked lists in a heap

Nodes live at addresses (natural numbers) of a heap and name their neighbours by address. `Linked h
ps`: the nodes at `ps` are linked to each other in this order, forward and
backward. The operations are the pointer assignments of the usual C code.

* `unlink_linked`: `prev->next = next; next->prev = prev` takes a node out.
* `insertAfter_linked`: the four assignments that put a node behind another.
* the values at every address stay (`val_unlink`, `val_insertAfter`).
-/

namespace DList

/-- A node: its neighbours and what it holds. -/
structure Node (α : Type*) where
  prev : ℕ
  next : ℕ
  val : α
deriving DecidableEq, Repr

/-- The heap: the node at each address in use. -/
abbrev Heap (α : Type*) := ℕ → Option (Node α)

variable {α : Type*}

/-- `p->next = q`. -/
def setNext (p q : ℕ) (h : Heap α) : Option (Heap α) := do
  let n ← h p
  some (Function.update h p (some { n with next := q }))

/-- `p->prev = q`. -/
def setPrev (p q : ℕ) (h : Heap α) : Option (Heap α) := do
  let n ← h p
  some (Function.update h p (some { n with prev := q }))

/-- `prev->next = next; next->prev = prev`. -/
def unlink (prev next : ℕ) (h : Heap α) : Option (Heap α) := do
  let h ← setNext prev next h
  setPrev next prev h

/-- `head_next = head->next; head->next = p; p->prev = head; head_next->prev = p; p->next = head_next`. -/
def insertAfter (head p : ℕ) (h : Heap α) : Option (Heap α) := do
  let n ← h head
  let h ← setNext head p h
  let h ← setPrev p head h
  let h ← setPrev n.next p h
  setNext p n.next h

/-- What the node at `p` holds. -/
def valAt (h : Heap α) (p : ℕ) : Option α := (h p).map Node.val

/-- `a` and `b` are neighbours, in this order. -/
def Link (h : Heap α) (a b : ℕ) : Prop :=
  (h a).map Node.next = some b ∧ (h b).map Node.prev = some a

/-- The nodes at `ps` are linked in this order. -/
def Linked (h : Heap α) (ps : List ℕ) : Prop := ps.IsChain (Link h)

theorem Link.left {h : Heap α} {a b : ℕ} (hl : Link h a b) : ∃ n, h a = some n ∧ n.next = b := by
  simpa using hl.1

theorem Link.right {h : Heap α} {a b : ℕ} (hl : Link h a b) : ∃ n, h b = some n ∧ n.prev = a := by
  simpa using hl.2

theorem setNext_some {h : Heap α} {p : ℕ} {n : Node α} (hp : h p = some n) (q : ℕ) :
    setNext p q h = some (Function.update h p (some { n with next := q })) := by
  simp [setNext, hp]

theorem setPrev_some {h : Heap α} {p : ℕ} {n : Node α} (hp : h p = some n) (q : ℕ) :
    setPrev p q h = some (Function.update h p (some { n with prev := q })) := by
  simp [setPrev, hp]

/-- The heaps agree on what is held where and differ in links only at `na` (its `next`) and `pb`
(its `prev`). -/
structure SameBut (h h' : Heap α) (na pb : ℕ → Prop) : Prop where
  val : ∀ p, valAt h' p = valAt h p
  next : ∀ p, ¬ na p → (h' p).map Node.next = (h p).map Node.next
  prev : ∀ p, ¬ pb p → (h' p).map Node.prev = (h p).map Node.prev

theorem SameBut.trans {h h' h'' : Heap α} {na pb na' pb' : ℕ → Prop} (h1 : SameBut h h' na pb)
    (h2 : SameBut h' h'' na' pb') : SameBut h h'' (fun p => na p ∨ na' p) (fun p => pb p ∨ pb' p) :=
  ⟨fun p => (h2.val p).trans (h1.val p),
   fun p hp => (h2.next p fun h => hp (.inr h)).trans (h1.next p fun h => hp (.inl h)),
   fun p hp => (h2.prev p fun h => hp (.inr h)).trans (h1.prev p fun h => hp (.inl h))⟩

theorem sameBut_setNext {h h' : Heap α} {p q : ℕ} (hs : setNext p q h = some h') :
    SameBut h h' (· = p) (fun _ => False) ∧ (h' p).map Node.next = some q := by
  cases hp : h p with
  | none => simp [setNext, hp] at hs
  | some n =>
    rw [setNext_some hp, Option.some.injEq] at hs
    subst hs
    refine ⟨⟨fun x => ?_, fun x hx => ?_, fun x _ => ?_⟩, by simp⟩
    · by_cases hx : x = p
      · subst hx; simp [valAt, hp]
      · simp [valAt, Function.update_of_ne hx]
    · rw [Function.update_of_ne hx]
    · by_cases hx : x = p
      · subst hx; simp [hp]
      · rw [Function.update_of_ne hx]

theorem sameBut_setPrev {h h' : Heap α} {p q : ℕ} (hs : setPrev p q h = some h') :
    SameBut h h' (fun _ => False) (· = p) ∧ (h' p).map Node.prev = some q := by
  cases hp : h p with
  | none => simp [setPrev, hp] at hs
  | some n =>
    rw [setPrev_some hp, Option.some.injEq] at hs
    subst hs
    refine ⟨⟨fun x => ?_, fun x _ => ?_, fun x hx => ?_⟩, by simp⟩
    · by_cases hx : x = p
      · subst hx; simp [valAt, hp]
      · simp [valAt, Function.update_of_ne hx]
    · by_cases hx : x = p
      · subst hx; simp [hp]
      · rw [Function.update_of_ne hx]
    · rw [Function.update_of_ne hx]

/-- A chain that has no left end at `na` and no right end at `pb` stays linked. -/
theorem SameBut.linked {h h' : Heap α} {na pb : ℕ → Prop} (hs : SameBut h h' na pb) {ps : List ℕ}
    (hn : ∀ p ∈ ps.dropLast, ¬ na p) (hp : ∀ p ∈ ps.tail, ¬ pb p) (hl : Linked h ps) :
    Linked h' ps := by
  induction ps with
  | nil => exact .nil
  | cons a ps ih =>
    cases ps with
    | nil => exact .singleton _
    | cons b ps =>
      unfold Linked at hl ⊢
      rw [List.isChain_cons_cons] at hl ⊢
      simp only [List.dropLast_cons_cons, List.tail_cons] at hn hp
      refine ⟨⟨?_, ?_⟩, ih (fun p h => hn p (List.mem_cons_of_mem _ h))
        (fun p h => hp p (List.mem_cons_of_mem _ h)) hl.2⟩
      · rw [hs.next a (hn a List.mem_cons_self)]; exact hl.1.1
      · rw [hs.prev b (hp b List.mem_cons_self)]; exact hl.1.2

theorem isSome_of_valAt {h h' : Heap α} {p : ℕ} (he : valAt h' p = valAt h p)
    (hp : (h p).isSome) : ∃ n, h' p = some n := by
  unfold valAt at he
  cases hc : h' p with
  | none =>
    rw [hc] at he
    obtain ⟨n, hn⟩ := Option.isSome_iff_exists.1 hp
    simp [hn] at he
  | some n => exact ⟨n, rfl⟩

/-- **Taking a node out.** -/
theorem unlink_linked {h : Heap α} {a p b : ℕ} {xs ys : List ℕ}
    (hl : Linked h (xs ++ a :: p :: b :: ys)) (hnd : (xs ++ a :: p :: b :: ys).Nodup) :
    ∃ h', unlink a b h = some h' ∧ Linked h' (xs ++ a :: b :: ys) ∧ ∀ q, valAt h' q = valAt h q := by
  unfold Linked at hl
  obtain ⟨hxa, hab⟩ := List.isChain_split.1 hl
  rw [List.isChain_cons_cons, List.isChain_cons_cons] at hab
  obtain ⟨hap, hpb, hby⟩ := hab
  -- `a` and `b` have nodes, before and after the first write
  obtain ⟨na, hna, -⟩ := hap.left
  obtain ⟨nb, hnb, -⟩ := hpb.right
  obtain ⟨h₁, hs₁⟩ : ∃ h₁, setNext a b h = some h₁ := ⟨_, setNext_some hna b⟩
  obtain ⟨hb₁, hn₁⟩ := sameBut_setNext hs₁
  obtain ⟨nb', hnb'⟩ := isSome_of_valAt (hb₁.val b) (by simp [hnb])
  obtain ⟨h₂, hs₂⟩ : ∃ h₂, setPrev b a h₁ = some h₂ := ⟨_, setPrev_some hnb' a⟩
  obtain ⟨hb₂, hp₂⟩ := sameBut_setPrev hs₂
  -- only `a`'s next and `b`'s prev have changed, so the chains up to `a` and from `b` on stand
  have hb := hb₁.trans hb₂
  refine ⟨h₂, by simp [unlink, hs₁, hs₂], ?_, hb.val⟩
  unfold Linked
  rw [List.isChain_split, List.isChain_cons_cons]
  simp only [List.nodup_append, List.nodup_cons, List.mem_cons, not_or] at hnd
  obtain ⟨-, ⟨⟨hap', hab', hay⟩, ⟨-, -⟩, hby', -⟩, hdis⟩ := hnd
  refine ⟨hb.linked ?_ ?_ hxa, ⟨?_, hp₂⟩, hb.linked ?_ ?_ hby⟩
  · intro q hq
    rw [List.dropLast_concat] at hq
    rintro (rfl | hf)
    · exact hdis q hq q (.inl rfl) rfl
    · exact hf
  · rintro q hq (hf | rfl)
    · exact hf
    · rcases List.mem_append.1 (List.mem_of_mem_tail hq) with hq | hq
      · exact hdis q hq q (.inr (.inr (.inl rfl))) rfl
      · exact hab' (List.mem_singleton.1 hq).symm
  · rw [hb₂.next a (fun hf => hf)]; exact hn₁
  · rintro q hq (rfl | hf)
    · rcases List.mem_cons.1 (List.mem_of_mem_dropLast hq) with rfl | hq
      · exact hab' rfl
      · exact hay hq
    · exact hf
  · rintro q hq (hf | rfl)
    · exact hf
    · exact hby' hq

/-- **Putting a node behind another.** -/
theorem insertAfter_linked {h : Heap α} {head b p : ℕ} {ys : List ℕ}
    (hl : Linked h (head :: b :: ys)) (hnd : (head :: p :: b :: ys).Nodup) (hp : (h p).isSome) :
    ∃ h', insertAfter head p h = some h' ∧ Linked h' (head :: p :: b :: ys) ∧
      ∀ q, valAt h' q = valAt h q := by
  unfold Linked at hl
  rw [List.isChain_cons_cons] at hl
  obtain ⟨hhb, hby⟩ := hl
  obtain ⟨nh, hnh, rfl⟩ := hhb.left
  obtain ⟨nb, hnb, -⟩ := hhb.right
  obtain ⟨h₁, hs₁⟩ : ∃ h₁, setNext head p h = some h₁ := ⟨_, setNext_some hnh p⟩
  obtain ⟨hb₁, hn₁⟩ := sameBut_setNext hs₁
  obtain ⟨np, hnp⟩ := isSome_of_valAt (hb₁.val p) hp
  obtain ⟨h₂, hs₂⟩ : ∃ h₂, setPrev p head h₁ = some h₂ := ⟨_, setPrev_some hnp head⟩
  obtain ⟨hb₂, hn₂⟩ := sameBut_setPrev hs₂
  obtain ⟨nb', hnb'⟩ := isSome_of_valAt ((hb₂.val nh.next).trans (hb₁.val _)) (by simp [hnb])
  obtain ⟨h₃, hs₃⟩ : ∃ h₃, setPrev nh.next p h₂ = some h₃ := ⟨_, setPrev_some hnb' p⟩
  obtain ⟨hb₃, hn₃⟩ := sameBut_setPrev hs₃
  obtain ⟨np', hnp'⟩ := isSome_of_valAt
    ((hb₃.val p).trans ((hb₂.val p).trans (hb₁.val p))) hp
  obtain ⟨h₄, hs₄⟩ : ∃ h₄, setNext p nh.next h₃ = some h₄ := ⟨_, setNext_some hnp' _⟩
  obtain ⟨hb₄, hn₄⟩ := sameBut_setNext hs₄
  -- the four writes together; the chain from the old first node on stands
  have hb := ((hb₁.trans hb₂).trans hb₃).trans hb₄
  simp only [List.nodup_cons, List.mem_cons, not_or] at hnd
  obtain ⟨⟨hhp, hhn, hhy⟩, ⟨hpn, hpy⟩, hny, -⟩ := hnd
  refine ⟨h₄, by simp [insertAfter, hnh, hs₁, hs₂, hs₃, hs₄], ?_, hb.val⟩
  unfold Linked
  rw [List.isChain_cons_cons, List.isChain_cons_cons]
  refine ⟨⟨?_, ?_⟩, ⟨hn₄, ?_⟩, hb.linked ?_ ?_ hby⟩
  · rw [hb₄.next head hhp, hb₃.next head (fun hf => hf), hb₂.next head (fun hf => hf)]; exact hn₁
  · rw [hb₄.prev p (fun hf => hf), hb₃.prev p hpn]; exact hn₂
  · rw [hb₄.prev _ (fun hf => hf)]; exact hn₃
  · rintro q hq (((rfl | hf) | hf) | rfl)
    · rcases List.mem_cons.1 (List.mem_of_mem_dropLast hq) with h' | h'
      · exact hhn h'
      · exact hhy h'
    · exact hf
    · exact hf
    · rcases List.mem_cons.1 (List.mem_of_mem_dropLast hq) with h' | h'
      · exact hpn h'
      · exact hpy h'
  · rintro q hq (((hf | rfl) | rfl) | hf)
    · exact hf
    · exact hpy hq
    · exact hny hq
    · exact hf

/-- Linking only looks at the nodes of the list. -/
theorem Linked.congr {h h' : Heap α} {ps : List ℕ} (he : ∀ p ∈ ps, h' p = h p) (hl : Linked h ps) :
    Linked h' ps := by
  induction ps with
  | nil => exact .nil
  | cons a ps ih =>
    cases ps with
    | nil => exact .singleton _
    | cons b ps =>
      unfold Linked at hl ⊢
      rw [List.isChain_cons_cons] at hl ⊢
      refine ⟨?_, ih (fun p h => he p (List.mem_cons_of_mem _ h)) hl.2⟩
      unfold Link
      rw [he a List.mem_cons_self, he b (List.mem_cons_of_mem _ List.mem_cons_self)]
      exact hl.1

/-- A list of at least two linked nodes has all its nodes in the heap. -/
theorem Linked.isSome {h : Heap α} {a b : ℕ} {ps : List ℕ} (hl : Linked h (a :: b :: ps)) :
    ∀ p ∈ a :: b :: ps, (h p).isSome := by
  induction ps generalizing a b with
  | nil =>
    have := (List.isChain_cons_cons.1 hl).1
    obtain ⟨n, hn, -⟩ := this.left
    obtain ⟨m, hm, -⟩ := this.right
    simp [hn, hm]
  | cons c ps ih =>
    obtain ⟨hab, hbc⟩ := List.isChain_cons_cons.1 hl
    obtain ⟨n, hn, -⟩ := hab.left
    intro p hp
    rcases List.mem_cons.1 hp with rfl | hp
    · simp [hn]
    · exact ih hbc p hp

/-- **Taking out the node at `p`** by its own links: its neighbours are the last node before it and
the first behind it. -/
theorem remove_linked {h : Heap α} {p : ℕ} {as bs : List ℕ} (ha : as ≠ []) (hb : bs ≠ [])
    (hl : Linked h (as ++ p :: bs)) (hnd : (as ++ p :: bs).Nodup) :
    ∃ n h', h p = some n ∧ bs.head? = some n.next ∧ unlink n.prev n.next h = some h' ∧
      Linked h' (as ++ bs) ∧ ∀ q, valAt h' q = valAt h q := by
  obtain ⟨xs, a, rfl⟩ := (List.eq_nil_or_concat' as).resolve_left ha
  obtain ⟨b, ys, rfl⟩ := List.exists_cons_of_ne_nil hb
  rw [List.append_assoc, List.singleton_append] at hl hnd
  obtain ⟨-, hab⟩ := List.isChain_split.1 hl
  rw [List.isChain_cons_cons, List.isChain_cons_cons] at hab
  obtain ⟨n, hn, hna⟩ := hab.1.right
  obtain ⟨m, hm, hmb⟩ := hab.2.1.left
  obtain rfl : n = m := Option.some.inj (hn.symm.trans hm)
  obtain ⟨h', hu, hl', hv⟩ := unlink_linked hl hnd
  refine ⟨n, h', hn, by simp [hmb], by rw [hna, hmb]; exact hu, ?_, hv⟩
  rw [List.append_assoc, List.singleton_append]; exact hl'

end DList
