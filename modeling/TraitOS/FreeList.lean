import Mathlib.Data.List.Nodup
import Mathlib.Data.Finset.Card
import Mathlib.Order.Interval.Finset.Nat
import Mathlib.Tactic

/-!
# Blocks and intrusive free lists

A heap is cut into blocks, each a header followed by its payload. Free blocks are
chained through a link in their own header, with the first link kept outside the
blocks. `Links` is what a traversal sees of a memory: the value of every link and
the size recorded in every header. `Linked` reads a chain off as a list of blocks,
and `Linked.splice` is the one rule for changing a chain at one link.
-/
namespace TraitOS.FreeList

variable {bs : List Block}

def headerBytes : ℕ := 16

structure Block where
  addr : ℕ
  size : ℕ
deriving DecidableEq, Repr

/-- First address behind the payload. -/
def Block.stop (b : Block) : ℕ := b.addr + headerBytes + b.size

/-- Two blocks whose extents, headers included, do not meet. -/
def Apart (a b : Block) : Prop := a.stop ≤ b.addr ∨ b.stop ≤ a.addr

theorem Apart.symm {a b : Block} (h : Apart a b) : Apart b a := Or.symm h

instance : Std.Symm Apart := ⟨fun _ _ h => h.symm⟩

theorem Apart.addr_ne {a b : Block} (h : Apart a b) : a.addr ≠ b.addr := by
  unfold Apart Block.stop headerBytes at h
  omega

/-- A block that lies within another one is apart from whatever that one is
apart from. -/
theorem Apart.mono {a a' b : Block} (h : Apart a b) (hlo : a.addr ≤ a'.addr)
    (hhi : a'.stop ≤ a.stop) : Apart a' b := by
  unfold Apart at *
  omega

lemma pairwise_apart_perm {l l' : List Block} (hp : l.Perm l') (h : l.Pairwise Apart) :
    l'.Pairwise Apart :=
  hp.pairwise h (fun hab => hab.symm)

lemma nodup_addr_of_apart {l : List Block} (h : l.Pairwise Apart) : (l.map Block.addr).Nodup :=
  List.pairwise_map.mpr (h.imp Apart.addr_ne)

/-- Blocks that are apart and start on header-sized boundaries between two
bounds are no more than the boundaries there are. -/
theorem length_le_of_apart {l : List Block} (h : l.Pairwise Apart) (lo hi : ℕ)
    (hal : ∀ b ∈ l, b.addr % headerBytes = 0) (hlo : ∀ b ∈ l, lo ≤ b.addr)
    (hhi : ∀ b ∈ l, b.addr < hi) : l.length ≤ hi / headerBytes + 1 - lo / headerBytes := by
  let slot : Block → ℕ := fun b => b.addr / headerBytes
  have hslot : (l.map slot).Nodup := by
    refine List.pairwise_map.mpr (List.Pairwise.imp_of_mem ?_ h)
    intro a b ha hb hab heq
    have hne := hab.addr_ne
    have hma := hal a ha
    have hmb := hal b hb
    unfold headerBytes at hma hmb
    simp only [slot, headerBytes] at heq
    omega
  have hsub : (l.map slot).toFinset ⊆ Finset.Ico (lo / headerBytes) (hi / headerBytes + 1) := by
    intro x hx
    obtain ⟨b, hb, rfl⟩ := List.mem_map.mp (List.mem_toFinset.mp hx)
    have h1 := hlo b hb
    have h2 := hhi b hb
    simp only [slot, Finset.mem_Ico, headerBytes]
    omega
  have hcard := Finset.card_le_card hsub
  rw [List.toFinset_card_of_nodup hslot, List.length_map, Nat.card_Ico] at hcard
  exact hcard

/-- Where a link is stored: outside the blocks, or in the header of one. -/
inductive Link where
  | head
  | node (addr : ℕ)
deriving DecidableEq, Repr

structure Links where
  next : Link → ℕ
  size : ℕ → ℕ

/-- The chain starting at a link, as the list of its blocks; zero ends it. -/
def Linked (s : Links) : Link → List Block → Prop
  | k, [] => s.next k = 0
  | k, b :: bs => s.next k = b.addr ∧ b.addr ≠ 0 ∧ s.size b.addr = b.size ∧
    Linked s (.node b.addr) bs

/-- The link behind a stretch of blocks. -/
def lastLink : Link → List Block → Link
  | k, [] => k
  | _, b :: bs => lastLink (.node b.addr) bs

/-- Links a traversal reads on its way over a stretch of blocks. -/
def linksOf (k : Link) (bs : List Block) : List Link := k :: bs.map (fun b => .node b.addr)

lemma lastLink_mem_linksOf (k : Link) (bs : List Block) : lastLink k bs ∈ linksOf k bs := by
  induction bs generalizing k with
  | nil => simp [lastLink, linksOf]
  | cons b bs ih => exact List.mem_cons_of_mem k (ih (.node b.addr))

lemma nodup_linksOf_head (h : bs.Pairwise Apart) : (linksOf .head bs).Nodup := by
  have hmap : (bs.map (fun b => Link.node b.addr)).Nodup :=
    List.pairwise_map.mpr (h.imp (fun hab heq => hab.addr_ne (Link.node.inj heq)))
  exact List.nodup_cons.mpr ⟨by simp, hmap⟩

theorem Linked.size {s : Links} {k : Link} (h : Linked s k bs) :
    ∀ b ∈ bs, s.size b.addr = b.size := by
  induction bs generalizing k with
  | nil => simp
  | cons b bs ih =>
    obtain ⟨_, _, hs, ht⟩ := h
    intro x hx
    rcases List.mem_cons.mp hx with hxb | hxt
    · subst hxb; exact hs
    · exact ih ht x hxt

/-- A link is null or leads to a block of the chain. -/
lemma Linked.next_cases {s : Links} {k : Link} (h : Linked s k bs) :
    s.next k = 0 ∨ ∃ b ∈ bs, s.next k = b.addr := by
  cases bs with
  | nil => exact Or.inl h
  | cons b bs => exact Or.inr ⟨b, List.mem_cons_self, h.1⟩

theorem Linked.drop {s : Links} {k : Link} {front bs : List Block} (h : Linked s k (front ++ bs)) :
    Linked s (lastLink k front) bs := by
  induction front generalizing k with
  | nil => exact h
  | cons b front ih => exact ih h.2.2.2

/-- The same blocks hang on another link, or in another memory, that agrees on
them. -/
theorem Linked.congr {s s' : Links} {k k' : Link} (h : Linked s k bs) (hk : s'.next k' = s.next k)
    (hnext : ∀ b ∈ bs, s'.next (.node b.addr) = s.next (.node b.addr))
    (hsize : ∀ b ∈ bs, s'.size b.addr = s.size b.addr) : Linked s' k' bs := by
  induction bs generalizing k k' with
  | nil => exact hk.trans h
  | cons b bs ih =>
    obtain ⟨hn, h0, hs, ht⟩ := h
    refine ⟨hk.trans hn, h0, (hsize b (by simp)).trans hs, ?_⟩
    exact ih ht (hnext b (by simp)) (fun x hx => hnext x (List.mem_cons_of_mem _ hx))
      (fun x hx => hsize x (List.mem_cons_of_mem _ hx))

/-- Keep a front part of a chain and let its last link lead elsewhere. -/
theorem Linked.splice {s s' : Links} {k : Link} {front bs bs' : List Block}
    (h : Linked s k (front ++ bs)) (hnd : (linksOf k front).Nodup)
    (hnext : ∀ j ∈ linksOf k front, j ≠ lastLink k front → s'.next j = s.next j)
    (hsize : ∀ b ∈ front, s'.size b.addr = s.size b.addr)
    (hback : Linked s' (lastLink k front) bs') : Linked s' k (front ++ bs') := by
  induction front generalizing k with
  | nil => exact hback
  | cons b front ih =>
    obtain ⟨hn, h0, hs, ht⟩ := h
    obtain ⟨hk, hnd'⟩ := List.nodup_cons.mp hnd
    have hkl : k ≠ lastLink (.node b.addr) front := by
      intro heq
      exact hk (heq ▸ lastLink_mem_linksOf (.node b.addr) front)
    refine ⟨(hnext k (by simp [linksOf]) hkl).trans hn, h0, (hsize b (by simp)).trans hs, ?_⟩
    exact ih ht hnd' (fun j hj => hnext j (List.mem_cons_of_mem _ hj))
      (fun x hx => hsize x (List.mem_cons_of_mem _ hx)) hback

/-- First link whose block is accepted by its size. The outer `none` is a
traversal that used up its fuel, `some none` one that met the end of the chain. -/
def seek (s : Links) (ok : ℕ → Bool) : ℕ → Link → Option (Option Link)
  | 0, _ => none
  | fuel + 1, k =>
    if s.next k = 0 then some none
    else if ok (s.size (s.next k)) then some (some k)
    else seek s ok fuel (.node (s.next k))

theorem seek_spec {s : Links} {ok : ℕ → Bool} {fuel : ℕ} {k : Link} (h : Linked s k bs)
    (hfuel : bs.length < fuel) :
    (∃ front b back, bs = front ++ b :: back ∧ ok b.size = true ∧
        seek s ok fuel k = some (some (lastLink k front))) ∨
      (seek s ok fuel k = some none ∧ ∀ b ∈ bs, ok b.size = false) := by
  induction bs generalizing k fuel with
  | nil =>
    obtain ⟨n, rfl⟩ : ∃ n, fuel = n + 1 := ⟨fuel - 1, by simp at hfuel; omega⟩
    have h0 : s.next k = 0 := h
    exact Or.inr ⟨by simp [seek, h0], by simp⟩
  | cons b bs ih =>
    obtain ⟨n, rfl⟩ : ∃ n, fuel = n + 1 := ⟨fuel - 1, by simp at hfuel; omega⟩
    obtain ⟨hn, h0, hs, ht⟩ := h
    by_cases hok : ok b.size = true
    · refine Or.inl ⟨[], b, bs, rfl, hok, ?_⟩
      simp [seek, hn, h0, hs, hok, lastLink]
    · have hstep : seek s ok (n + 1) k = seek s ok n (.node b.addr) := by
        simp [seek, hn, h0, hs, hok]
      have hlen : bs.length < n := by simpa using hfuel
      rw [hstep]
      rcases ih ht hlen with ⟨front, x, back, hbs, hx, hseek⟩ | ⟨hseek, hall⟩
      · exact Or.inl ⟨b :: front, x, back, by simp [hbs], hx, hseek⟩
      · refine Or.inr ⟨hseek, ?_⟩
        intro x hx
        rcases List.mem_cons.mp hx with hxb | hxt
        · subst hxb; simpa using hok
        · exact hall x hxt

end TraitOS.FreeList
