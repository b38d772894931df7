import SegMalloc.Layout
import SegMalloc.FreeList

/-! The free lists as address lists. `MiniChain m l e` says that the `next_mini` words
of `l` link each node to the next and the last to `e`; `FreeChain m p l e` says the
same of `free.next`, with `free.prev` linking back and the first node's pointing to `p`.
Each list operation of `mm.c` is specified as an edit of the address list: the new
chain, the list head, and the bytes it may write, which are link words of the node and
of its list neighbours only. -/
namespace SegMalloc.Links
open Memory Header Block FreeList

open State

def MiniChain (m : Mem) : List Nat → Nat → Prop
  | [], _ => True
  | x :: xs, e => (loadWord m (x + 8)).toNat = xs.headD e ∧ MiniChain m xs e

def FreeChain (m : Mem) : Nat → List Nat → Nat → Prop
  | _, [], _ => True
  | p, x :: xs, e =>
    (loadWord m (x + 8)).toNat = p ∧ (loadWord m (x + 16)).toNat = xs.headD e ∧ FreeChain m x xs e

/-- Nodes at least 16 bytes apart, so that their link words never overlap. -/
def Spread (l : List Nat) : Prop := l.Pairwise fun x y => x + 16 ≤ y ∨ y + 16 ≤ x

/-- Byte `b` lies outside the `k` link bytes of every node of `zs`. -/
def OffLinks (k : Nat) (zs : List Nat) (b : Nat) : Prop := ∀ z ∈ zs, b < z + 8 ∨ z + 8 + k ≤ b

/-- The link bytes of a node of list `i`: `next_mini` on list 0, `free.prev` and
`free.next` elsewhere. -/
def linkLen (i : Nat) : Nat := if i = 0 then 8 else 16

/-! ## Chains -/

theorem miniChain_cons (m : Mem) (x : Nat) (xs : List Nat) (e : Nat) :
    MiniChain m (x :: xs) e = ((loadWord m (x + 8)).toNat = xs.headD e ∧ MiniChain m xs e) := rfl

theorem freeChain_cons (m : Mem) (p x : Nat) (xs : List Nat) (e : Nat) :
    FreeChain m p (x :: xs) e = ((loadWord m (x + 8)).toNat = p ∧
      (loadWord m (x + 16)).toNat = xs.headD e ∧ FreeChain m x xs e) := rfl

theorem miniChain_append {m : Mem} {l₁ l₂ : List Nat} {e : Nat} :
    MiniChain m (l₁ ++ l₂) e ↔ MiniChain m l₁ (l₂.headD e) ∧ MiniChain m l₂ e := by
  induction l₁ with
  | nil => simp [MiniChain]
  | cons x l ih =>
    cases l <;> simp_all [miniChain_cons, MiniChain, and_assoc]

theorem freeChain_append {m : Mem} {l₂ : List Nat} {e : Nat} :
    ∀ {p : Nat} {l₁ : List Nat}, FreeChain m p (l₁ ++ l₂) e ↔
      FreeChain m p l₁ (l₂.headD e) ∧ FreeChain m (l₁.getLast?.getD p) l₂ e
  | p, [] => by simp [FreeChain]
  | p, [x] => by simp [freeChain_cons, FreeChain, and_assoc]
  | p, x :: y :: l => by
    rw [List.cons_append, freeChain_cons, freeChain_cons, freeChain_append, List.getLast?_cons_cons,
      List.getLast?_eq_getLast _ (List.cons_ne_nil _ _)]
    simp [and_assoc]

theorem miniChain_frame {m m' : Mem} {e : Nat} :
    ∀ {l : List Nat}, (∀ x ∈ l, loadWord m' (x + 8) = loadWord m (x + 8)) →
      MiniChain m l e → MiniChain m' l e
  | [], _, _ => trivial
  | x :: _, hag, ⟨h, hr⟩ =>
    ⟨by rw [hag x (List.mem_cons_self _ _), h],
      miniChain_frame (fun y hy => hag y (List.mem_cons_of_mem _ hy)) hr⟩

theorem freeChain_frame {m m' : Mem} {e : Nat} :
    ∀ {p : Nat} {l : List Nat},
      (∀ x ∈ l, loadWord m' (x + 8) = loadWord m (x + 8) ∧
        loadWord m' (x + 16) = loadWord m (x + 16)) →
      FreeChain m p l e → FreeChain m' p l e
  | _, [], _, _ => trivial
  | _, x :: _, hag, ⟨h₁, h₂, hr⟩ =>
    ⟨by rw [(hag x (List.mem_cons_self _ _)).1, h₁], by rw [(hag x (List.mem_cons_self _ _)).2, h₂],
      freeChain_frame (fun y hy => hag y (List.mem_cons_of_mem _ hy)) hr⟩

/-- A link word away from every written node keeps its value. -/
theorem loadWord_of_offLinks {m m' : Mem} {k : Nat} {zs : List Nat} {y : Nat}
    (hag : Agree (OffLinks k zs) m m') (hk : k ≤ 16)
    (hy : ∀ z ∈ zs, y + 8 ≤ z + 8 ∨ z + 24 ≤ y) : loadWord m' y = loadWord m y :=
  loadWord_congr fun b h₁ h₂ => hag b fun z hz => by have := hy z hz; omega

theorem miniChain_agree {m m' : Mem} {k : Nat} {zs l : List Nat} {e : Nat}
    (hag : Agree (OffLinks k zs) m m') (hk : k ≤ 16)
    (hsep : ∀ x ∈ l, ∀ z ∈ zs, x + 16 ≤ z ∨ z + 16 ≤ x) (h : MiniChain m l e) :
    MiniChain m' l e :=
  miniChain_frame (fun x hx => loadWord_of_offLinks hag hk fun z hz => by
    have := hsep x hx z hz; omega) h

theorem freeChain_agree {m m' : Mem} {k : Nat} {zs l : List Nat} {p e : Nat}
    (hag : Agree (OffLinks k zs) m m') (hk : k ≤ 16)
    (hsep : ∀ x ∈ l, ∀ z ∈ zs, x + 16 ≤ z ∨ z + 16 ≤ x) (h : FreeChain m p l e) :
    FreeChain m' p l e :=
  freeChain_frame (fun x hx => ⟨loadWord_of_offLinks hag hk fun z hz => by
    have := hsep x hx z hz; omega, loadWord_of_offLinks hag hk fun z hz => by
    have := hsep x hx z hz; omega⟩) h

theorem spread_cons {x : Nat} {l : List Nat} :
    Spread (x :: l) ↔ (∀ y ∈ l, x + 16 ≤ y ∨ y + 16 ≤ x) ∧ Spread l := List.pairwise_cons

theorem Spread.nodup {l : List Nat} (h : Spread l) : l.Nodup :=
  h.imp fun h' => by omega

theorem Spread.sublist {l₁ l₂ : List Nat} (h : l₁.Sublist l₂) (hs : Spread l₂) : Spread l₁ :=
  List.Pairwise.sublist h hs

/-- Distinct nodes of a spread list are 16 bytes apart. -/
theorem Spread.apart {l : List Nat} (h : Spread l) {x y : Nat} (hx : x ∈ l) (hy : y ∈ l)
    (hne : x ≠ y) : x + 16 ≤ y ∨ y + 16 ≤ x :=
  List.Pairwise.forall (fun _ _ h => h.symm) h hx hy hne

/-! ## Writes -/

theorem toNat_loadWord_storeWord_same (m : Mem) (a : Nat) {v : Nat} (hv : v < 2 ^ 64) :
    (loadWord (storeWord m a (UInt64.ofNat v)) a).toNat = v := by
  rw [loadWord_storeWord_same, uint64_toNat_ofNat, Nat.mod_eq_of_lt hv]

theorem agree_storeWord_link (k : Nat) (zs : List Nat) (m : Mem) {z y : Nat} (w : UInt64)
    (hz : z ∈ zs) (hy₁ : z + 8 ≤ y) (hy₂ : y + 8 ≤ z + 8 + k) :
    Agree (OffLinks k zs) m (storeWord m y w) :=
  agree_storeWord m w fun b hb => by have := hb z hz; omega

/-! ## The mini list -/

theorem insertToMiniFreeList_eq (s : State) {x : Nat} (hx : x ≠ 0) :
    insertToMiniFreeList s x =
      { s with mem := storeWord s.mem (x + 8) (UInt64.ofNat (s.segList 0)),
               segList := Function.update s.segList 0 x } := by
  unfold insertToMiniFreeList setNextMini
  by_cases h : s.segList 0 = 0 <;> simp [h, hx, State.setWord, State.setHead]

/-- `insert_to_mini_free_list` pushes `x` on the mini list and writes only its link. -/
theorem insertToMiniFreeList_spec {s : State} {x : Nat} {l : List Nat} (hx : x ≠ 0)
    (hhead : s.segList 0 = l.headD 0) (hl : MiniChain s.mem l 0) (hsp : Spread (x :: l))
    (hlt : l.headD 0 < 2 ^ 64) :
    ∃ m', insertToMiniFreeList s x = { s with mem := m', segList := Function.update s.segList 0 x } ∧
      MiniChain m' (x :: l) 0 ∧ Agree (OffLinks 8 [x]) s.mem m' := by
  refine ⟨_, insertToMiniFreeList_eq s hx, ?_, ?_⟩
  · rw [miniChain_cons]
    refine ⟨?_, ?_⟩
    · rw [hhead, toNat_loadWord_storeWord_same _ _ hlt]
    · exact miniChain_frame (fun y hy => loadWord_storeWord_of_disjoint _ _ (by
        have := (spread_cons.1 hsp).1 y hy; omega)) hl
  · exact agree_storeWord_link 8 [x] _ _ (List.mem_singleton_self x) le_rfl le_rfl

/-- The loop of `delete_from_mini_free_list` stops at the node before `x`. -/
theorem miniWalk_find {s : State} {x e : Nat} {post : List Nat} :
    ∀ {ys : List Nat} {q fuel : Nat}, MiniChain s.mem (q :: ys ++ x :: post) e → x ∉ ys →
      ys.length < fuel → miniWalk s x fuel q (nextMini s q) = (q :: ys).getLast? := by
  intro ys
  induction ys with
  | nil =>
    intro q fuel h _ hf
    obtain ⟨fuel, rfl⟩ : ∃ f, fuel = f + 1 := ⟨fuel - 1, by simp at hf; omega⟩
    have hq : nextMini s q = x := h.1
    simp [miniWalk, hq]
  | cons y ys ih =>
    intro q fuel h hx hf
    obtain ⟨fuel, rfl⟩ : ∃ f, fuel = f + 1 := ⟨fuel - 1, by simp at hf; omega⟩
    have hq : nextMini s q = y := h.1
    have hy : y ≠ x := fun hy => hx (hy ▸ List.mem_cons_self _ _)
    rw [miniWalk, if_neg (by rw [hq]; exact hy), hq,
      ih h.2 (fun h' => hx (List.mem_cons_of_mem _ h')) (by simp at hf; omega),
      List.getLast?_cons_cons]

/-- The nodes after the head of a `next_mini` chain are 64-bit words read from memory. -/
theorem miniChain_lt {m : Mem} {e : Nat} : ∀ {q : Nat} {l : List Nat},
    MiniChain m (q :: l) e → ∀ y ∈ l, y < 2 ^ 64
  | _, [], _, y, hy => absurd hy (List.not_mem_nil y)
  | q, z :: l, h, y, hy => by
    rcases List.mem_cons.1 hy with rfl | hy
    · have hz : (loadWord m (q + 8)).toNat = y := h.1
      exact hz ▸ loadWord_toNat_lt m _
    · exact miniChain_lt h.2 y hy

/-- Distinct 64-bit words are at most `2^64`. -/
theorem length_le_of_words {l : List Nat} (hnd : l.Nodup) (hlt : ∀ y ∈ l, y < 2 ^ 64) :
    l.length ≤ 2 ^ 64 := by
  simpa using (List.subperm_of_subset hnd fun y hy => List.mem_range.2 (hlt y hy)).length_le

/-- `delete_from_mini_free_list` unlinks `x`, which is on the list, after a walk that
ends within the fuel, and writes only the link of the node before it. -/
theorem deleteFromMiniFreeList_spec {s : State} {x : Nat} {pre post : List Nat} (hx : x ≠ 0)
    (hhead : s.segList 0 = (pre ++ x :: post).headD 0) (hl : MiniChain s.mem (pre ++ x :: post) 0)
    (hsp : Spread (pre ++ x :: post)) (h0 : 0 ∉ pre) (hlt : post.headD 0 < 2 ^ 64) :
    ∃ m', deleteFromMiniFreeList s x =
        some { s with mem := m', segList := Function.update s.segList 0 ((pre ++ post).headD 0) } ∧
      MiniChain m' (pre ++ post) 0 ∧ Agree (OffLinks 8 pre.getLast?.toList) s.mem m' := by
  have hxpre : x ∉ pre := fun h => (List.nodup_cons.1 (List.nodup_middle.1 hsp.nodup)).1
    (List.mem_append_left _ h)
  rcases List.eq_nil_or_concat' pre with rfl | ⟨pre, p, rfl⟩
  · have hnext : nextMini s x = post.headD 0 := hl.1
    refine ⟨s.mem, ?_, hl.2, Agree.refl _ _⟩
    simp only [deleteFromMiniFreeList, if_neg hx, hhead, List.nil_append, List.headD_cons,
      ite_true, hnext]
    rfl
  · obtain ⟨q, ys, hqys⟩ : ∃ q ys, pre ++ [p] = q :: ys := by cases pre <;> simp
    have hq : s.segList 0 = q := by rw [hhead, hqys]; rfl
    have hqx : q ≠ x := fun h => hxpre (by rw [hqys, h]; exact List.mem_cons_self _ _)
    have hq0 : q ≠ 0 := fun h => h0 (by rw [hqys, h]; exact List.mem_cons_self _ _)
    -- the nodes the walk passes, and `x`, are distinct words: fewer than `2^64` steps
    have hch : MiniChain s.mem (q :: (ys ++ x :: post)) 0 := by
      rw [← List.cons_append, ← hqys]; exact hl
    have hsub : List.Sublist (ys ++ [x]) (ys ++ x :: post) :=
      ((List.nil_sublist post).cons_cons x).append_left ys
    have hnd : (ys ++ [x]).Nodup :=
      (hsub.cons q).nodup (by rw [← List.cons_append, ← hqys]; exact hsp.nodup)
    have hlen := length_le_of_words hnd fun y hy => miniChain_lt hch y (hsub.subset hy)
    have hwalk : miniWalk s x (2 ^ 64) q (nextMini s q) = some p := by
      rw [miniWalk_find hch (fun h => hxpre (by rw [hqys]; exact List.mem_cons_of_mem _ h))
        (by simp at hlen; omega), ← hqys, List.getLast?_concat]
    rw [List.append_assoc, List.singleton_append] at hl hsp
    rw [miniChain_append] at hl
    have hpx : nextMini s x = post.headD 0 := hl.2.2.1
    have hfar : ∀ y ∈ pre ++ post, y + 16 ≤ p ∨ p + 16 ≤ y := by
      have hpy : p ∉ pre ++ x :: post := (List.nodup_cons.1 (List.nodup_middle.1 hsp.nodup)).1
      intro y hy
      rcases List.mem_append.1 hy with h | h
      · exact hsp.apart (List.mem_append_left _ h) (List.mem_append_right _ (List.mem_cons_self _ _))
          (fun e => hpy (List.mem_append_left _ (e ▸ h)))
      · exact hsp.apart (List.mem_append_right _ (List.mem_cons_of_mem _ (List.mem_cons_of_mem _ h)))
          (List.mem_append_right _ (List.mem_cons_self _ _))
          (fun e => hpy (List.mem_append_right _ (List.mem_cons_of_mem _ (e ▸ h))))
    refine ⟨storeWord s.mem (p + 8) (UInt64.ofNat (post.headD 0)), ?_, ?_, ?_⟩
    · simp only [deleteFromMiniFreeList, if_neg hx, hq, if_neg hq0, if_neg hqx, hwalk,
        Option.map_some', hpx]
      rw [show (pre ++ [p] ++ post).headD 0 = q by rw [List.append_assoc, ← List.append_assoc, hqys]; rfl,
        ← hq, Function.update_eq_self]
      rfl
    · rw [List.append_assoc, List.singleton_append, miniChain_append]
      refine ⟨miniChain_frame (fun y hy => loadWord_storeWord_of_disjoint _ _ ?_) hl.1,
        toNat_loadWord_storeWord_same _ _ hlt,
        miniChain_frame (fun y hy => loadWord_storeWord_of_disjoint _ _ ?_) hl.2.2.2⟩
      · have := hfar y (List.mem_append_left _ hy); omega
      · have := hfar y (List.mem_append_right _ hy); omega
    · rw [List.getLast?_concat]
      exact agree_storeWord_link 8 [p] _ _ (List.mem_singleton_self p) le_rfl le_rfl

/-! ## The doubly linked lists -/

/-- `insert_to_free_list` pushes `x` on the list of its size class, writing its two links
and the `free.prev` word of the old head. -/
theorem insertToFreeList_spec {s : State} {x i : Nat} {l : List Nat} (hx : x ≠ 0)
    (hi : getListIndex (getSize s x) = i) (hhead : s.segList i = l.headD 0)
    (hl : FreeChain s.mem 0 l 0) (hsp : Spread (x :: l)) (h0 : 0 ∉ l)
    (hlt : ∀ y ∈ x :: l, y < 2 ^ 64) :
    ∃ m', insertToFreeList s x = { s with mem := m', segList := Function.update s.segList i x } ∧
      FreeChain m' 0 (x :: l) 0 ∧ Agree (OffLinks 16 (x :: l.take 1)) s.mem m' := by
  have hxl := hlt x (List.mem_cons_self _ _)
  rcases l with _ | ⟨h, t⟩
  · refine ⟨storeWord (storeWord s.mem (x + 8) (UInt64.ofNat 0)) (x + 16) (UInt64.ofNat 0),
      ?_, ⟨?_, ?_, trivial⟩, ?_⟩
    · simp only [insertToFreeList, if_neg hx, hi, hhead, List.headD_nil, ite_true, setFreePrev,
        setFreeNext]
      rfl
    · rw [loadWord_storeWord_of_disjoint _ _ (by omega), toNat_loadWord_storeWord_same _ _ (by norm_num)]
    · rw [toNat_loadWord_storeWord_same _ _ (by norm_num)]; rfl
    · exact (agree_storeWord_link 16 [x] _ _ (List.mem_singleton_self x) le_rfl (by omega)).trans
        (agree_storeWord_link 16 [x] _ _ (List.mem_singleton_self x) (by omega) le_rfl)
  · obtain ⟨hx', ht⟩ := spread_cons.1 hsp
    have hxh := hx' h (List.mem_cons_self _ _)
    have hh0 : h ≠ 0 := fun e => h0 (e ▸ List.mem_cons_self _ _)
    have hhl := hlt h (by simp)
    obtain ⟨hprev, hnext, hrest⟩ := hl
    have hag : Agree (OffLinks 16 (x :: (h :: t).take 1)) s.mem (storeWord (storeWord (storeWord
        s.mem (x + 8) (UInt64.ofNat 0)) (x + 16) (UInt64.ofNat h)) (h + 8) (UInt64.ofNat x)) :=
      (agree_storeWord_link 16 (x :: (h :: t).take 1) _ _ (z := x) (by simp) le_rfl (by omega)).trans
        ((agree_storeWord_link 16 (x :: (h :: t).take 1) _ _ (z := x) (by simp) (by omega)
          le_rfl).trans
          (agree_storeWord_link 16 (x :: (h :: t).take 1) _ _ (z := h) (by simp) le_rfl (by omega)))
    refine ⟨storeWord (storeWord (storeWord s.mem (x + 8) (UInt64.ofNat 0)) (x + 16)
      (UInt64.ofNat h)) (h + 8) (UInt64.ofNat x), ?_, ⟨?_, ?_, ?_, ?_, ?_⟩, ?_⟩
    · simp only [insertToFreeList, if_neg hx, hi, hhead, List.headD_cons, if_neg hh0, setFreePrev,
        setFreeNext]
      rfl
    · rw [loadWord_storeWord_of_disjoint _ _ (by omega), loadWord_storeWord_of_disjoint _ _ (by omega),
        toNat_loadWord_storeWord_same _ _ (by norm_num)]
    · rw [loadWord_storeWord_of_disjoint _ _ (by omega), toNat_loadWord_storeWord_same _ _ hhl]; rfl
    · rw [toNat_loadWord_storeWord_same _ _ hxl]
    · rw [loadWord_storeWord_of_disjoint _ _ (by omega), loadWord_storeWord_of_disjoint _ _ (by omega),
        loadWord_storeWord_of_disjoint _ _ (by omega), hnext]
    · refine freeChain_agree hag le_rfl ?_ hrest
      intro y hy z hz
      simp only [List.take, List.mem_cons, List.mem_singleton, List.not_mem_nil, or_false] at hz
      rcases hz with rfl | rfl
      · exact (hx' y (List.mem_cons_of_mem _ hy)).symm
      · exact (spread_cons.1 ht).1 y hy |>.symm
    · exact hag

theorem Spread.before {l₁ l₂ : List Nat} (h : Spread (l₁ ++ l₂)) {a b : Nat} (ha : a ∈ l₁)
    (hb : b ∈ l₂) : a + 16 ≤ b ∨ b + 16 ≤ a :=
  (List.pairwise_append.1 h).2.2 a ha b hb

theorem Spread.right {l₁ l₂ : List Nat} (h : Spread (l₁ ++ l₂)) : Spread l₂ :=
  (List.pairwise_append.1 h).2.1

/-- `delete_from_free_list` unlinks `x`, writing `free.next` of the node before it and
`free.prev` of the node after it. -/
theorem deleteFromFreeList_spec {s : State} {x i : Nat} {pre post : List Nat} (hx : x ≠ 0)
    (hi : getListIndex (getSize s x) = i) (hhead : s.segList i = (pre ++ x :: post).headD 0)
    (hl : FreeChain s.mem 0 (pre ++ x :: post) 0) (hsp : Spread (pre ++ x :: post))
    (h0 : 0 ∉ pre ++ x :: post) (hlt : ∀ y ∈ pre ++ x :: post, y < 2 ^ 64) :
    ∃ m', deleteFromFreeList s x =
        { s with mem := m', segList := Function.update s.segList i ((pre ++ post).headD 0) } ∧
      FreeChain m' 0 (pre ++ post) 0 ∧
      Agree (OffLinks 16 (pre.getLast?.toList ++ post.take 1)) s.mem m' := by
  have hxpre : x ∉ pre := fun h => (List.nodup_cons.1 (List.nodup_middle.1 hsp.nodup)).1
    (List.mem_append_left _ h)
  have hpost0 : post.headD 0 < 2 ^ 64 := by
    cases post with
    | nil => norm_num
    | cons n t => exact hlt n (by simp)
  rcases List.eq_nil_or_concat' pre with rfl | ⟨pre, p, rfl⟩
  · -- `x` is the head
    obtain ⟨-, hxn, hpost⟩ := hl
    have hxnext : freeNext s x = post.headD 0 := hxn
    have hsp' := (spread_cons.1 hsp).2
    rcases post with _ | ⟨n, t⟩
    · refine ⟨s.mem, ?_, trivial, Agree.refl _ _⟩
      simp only [deleteFromFreeList, if_neg hx, hi, hhead, List.nil_append, List.headD_cons,
        ite_true, hxnext, List.headD_nil, ne_eq, not_true_eq_false, ite_false]
      rfl
    · have hn0 : n ≠ 0 := fun e => h0 (by simp [e])
      obtain ⟨-, hnn, hrest⟩ := hpost
      obtain ⟨hn', -⟩ := spread_cons.1 hsp'
      refine ⟨storeWord s.mem (n + 8) (UInt64.ofNat 0), ?_, ⟨?_, ?_, ?_⟩, ?_⟩
      · simp only [deleteFromFreeList, if_neg hx, hi, hhead, List.nil_append, List.headD_cons,
          ite_true, hxnext, ne_eq, hn0, not_false_eq_true, ite_true, setFreePrev]
        rfl
      · exact toNat_loadWord_storeWord_same _ _ (by norm_num)
      · rw [loadWord_storeWord_of_disjoint _ _ (by omega)]; exact hnn
      · exact freeChain_agree (agree_storeWord_link 16 [n] _ _ (by simp) le_rfl (by omega)) le_rfl
          (fun y hy z hz => by simp at hz; subst hz; exact (hn' y hy).symm) hrest
      · exact agree_storeWord_link 16 [n] _ _ (by simp) le_rfl (by omega)
  · -- `x` follows `p`
    simp only [List.append_assoc, List.singleton_append] at hl hsp h0 hlt
    rw [freeChain_append] at hl
    obtain ⟨hpre, hpp, hpx, hxp, hxn, hpost⟩ := hl
    have hxprev : freePrev s x = p := hxp
    have hxnext : freeNext s x = post.headD 0 := hxn
    have hp0 : p ≠ 0 := fun e => h0 (by simp [e])
    have hpl := hlt p (by simp)
    obtain ⟨q, ys, hqys⟩ : ∃ q ys, pre ++ [p] = q :: ys := by cases pre <;> simp
    have hhq : s.segList i = q := by rw [hhead, hqys]; rfl
    have hq : (pre ++ [p] ++ post).headD 0 = q := by rw [hqys]; rfl
    have hqx : q ≠ x := fun e => hxpre (by rw [hqys, e]; exact List.mem_cons_self _ _)
    have hsp₁ : ∀ y ∈ pre, y + 16 ≤ p ∨ p + 16 ≤ y := fun y hy => hsp.before hy (by simp)
    obtain ⟨hp', hsp₂⟩ := spread_cons.1 hsp.right
    obtain ⟨-, hsp₃⟩ := spread_cons.1 hsp₂
    rw [List.getLast?_concat, Option.toList_some, List.append_assoc, List.singleton_append]
    rcases post with _ | ⟨n, t⟩
    · refine ⟨storeWord s.mem (p + 16) (UInt64.ofNat 0), ?_, ?_, ?_⟩
      · simp only [deleteFromFreeList, if_neg hx, hi, hhq, if_neg hqx, hxprev, hxnext,
          List.headD_nil, ne_eq, not_true_eq_false, ite_false, setFreeNext]
        rw [← List.singleton_append, ← List.append_assoc, hq, ← hhq, Function.update_eq_self]
        rfl
      · rw [freeChain_append]
        refine ⟨freeChain_agree (agree_storeWord_link 16 [p] _ _ (List.mem_singleton_self p)
          (by omega) le_rfl) le_rfl (fun y hy z hz => by simp at hz; subst hz; exact hsp₁ y hy) hpre,
          ?_, ?_, trivial⟩
        · rw [loadWord_storeWord_of_disjoint _ _ (by omega)]; exact hpp
        · rw [toNat_loadWord_storeWord_same _ _ (by norm_num)]; rfl
      · exact agree_storeWord_link 16 [p] _ _ (by simp) (by omega) le_rfl
    · have hn0 : n ≠ 0 := fun e => h0 (by simp [e])
      have hnl := hlt n (by simp)
      have hpn := hp' n (by simp)
      obtain ⟨-, hnn, hrest⟩ := hpost
      obtain ⟨hnt, -⟩ := spread_cons.1 hsp₃
      have hag : Agree (OffLinks 16 (p :: (n :: t).take 1)) s.mem
          (storeWord (storeWord s.mem (p + 16) (UInt64.ofNat n)) (n + 8) (UInt64.ofNat p)) :=
        (agree_storeWord_link 16 (p :: (n :: t).take 1) _ _ (z := p) (by simp) (by omega)
          le_rfl).trans
          (agree_storeWord_link 16 (p :: (n :: t).take 1) _ _ (z := n) (by simp) le_rfl (by omega))
      refine ⟨storeWord (storeWord s.mem (p + 16) (UInt64.ofNat n)) (n + 8) (UInt64.ofNat p),
        ?_, ?_, hag⟩
      · simp only [deleteFromFreeList, if_neg hx, hi, hhq, if_neg hqx, hxprev, hxnext,
          List.headD_cons, ne_eq, hn0, not_false_eq_true, ite_true, setFreeNext, setFreePrev]
        rw [← List.singleton_append, ← List.append_assoc, hq, ← hhq, Function.update_eq_self]
        rfl
      · rw [freeChain_append]
        refine ⟨freeChain_agree hag le_rfl (fun y hy z hz => ?_) hpre, ?_, ?_, ?_, ?_, ?_⟩
        · simp only [List.take, List.mem_cons, List.mem_singleton, List.not_mem_nil,
            or_false] at hz
          rcases hz with rfl | rfl
          · exact hsp₁ y hy
          · exact hsp.before hy (by simp)
        · rw [loadWord_storeWord_of_disjoint _ _ (by omega),
            loadWord_storeWord_of_disjoint _ _ (by omega)]
          exact hpp
        · rw [loadWord_storeWord_of_disjoint _ _ (by omega), toNat_loadWord_storeWord_same _ _ hnl]
          rfl
        · exact toNat_loadWord_storeWord_same _ _ hpl
        · rw [loadWord_storeWord_of_disjoint _ _ (by omega),
            loadWord_storeWord_of_disjoint _ _ (by omega)]
          exact hnn
        · refine freeChain_agree hag le_rfl (fun y hy z hz => ?_) hrest
          simp only [List.take, List.mem_cons, List.mem_singleton, List.not_mem_nil,
            or_false] at hz
          rcases hz with rfl | rfl
          · exact (hp' y (by simp [hy])).symm
          · exact (hnt y hy).symm

end SegMalloc.Links
