import Limnx.Tokenizer

/-! `bpe_encode` makes one pass for each merge, where the standard algorithm looks for the first merge that applies after
    each step. -/

open UInt32

namespace Limnx
open List

namespace BpeMerge
variable {m m' : BpeMerge} {ts us : List Nat}

section
variable {vocab : Nat → List UInt8} (hm : vocab m.result = vocab m.left ++ vocab m.right)
include hm

theorem flatMap_pass (rest : List Nat) : ∀ token, (m.pass token rest).flatMap vocab = (token :: rest).flatMap vocab := by
  induction rest with
  | nil => exact fun _ => rfl
  | cons next rest ih =>
    intro token
    rw [pass]
    split
    next h => rw [ih, flatMap_cons, flatMap_cons, flatMap_cons, hm, h.1, h.2, append_assoc]
    · rw [flatMap_cons, ih, ← flatMap_cons]

theorem flatMap_apply (ts : List Nat) : (m.apply ts).flatMap vocab = ts.flatMap vocab := by
  cases ts with
  | nil => rfl
  | cons token rest => exact flatMap_pass hm rest token

end

theorem mem_pass {t : Nat} (rest : List Nat) : ∀ token, t ∈ m.pass token rest → t = m.result ∨ t ∈ token :: rest := by
  induction rest with
  | nil => exact fun _ => .inr
  | cons next rest ih =>
    intro token ht
    rw [pass] at ht
    split at ht
    · rcases ih _ ht with h | h
      · exact .inl h
      · exact (mem_cons.mp h).imp_right fun h => by simp [h]
    · rcases mem_cons.mp ht with rfl | ht
      · exact .inr mem_cons_self
      · exact (ih _ ht).imp_right (mem_cons_of_mem _)

theorem mem_apply {t : Nat} (ht : t ∈ m.apply ts) : t = m.result ∨ t ∈ ts := by
  cases ts with
  | nil => cases ht
  | cons token rest => exact mem_pass rest token ht

def first (m : BpeMerge) : List Nat → Option (List Nat)
  | a :: b :: rest => if a = m.left ∧ b = m.right then some (m.result :: rest) else (m.first (b :: rest)).map (a :: ·)
  | _ => none

theorem first_cons_none {a b : Nat} {rest : List Nat} :
    m.first (a :: b :: rest) = none ↔ ¬(a = m.left ∧ b = m.right) ∧ m.first (b :: rest) = none := by
  rw [first]
  split <;> simp_all

/-- The pair is replaced at the start, or behind a token that does not begin it. -/
theorem first_induction {P : List Nat → List Nat → Prop}
    (here : ∀ rest, P (m.left :: m.right :: rest) (m.result :: rest))
    (later : ∀ a b rest x us, ¬(a = m.left ∧ b = m.right) → x = b ∨ x = m.result → P (b :: rest) (x :: us) →
      P (a :: b :: rest) (a :: x :: us)) :
    ∀ {ts us}, m.first ts = some us → P ts us ∧ ∃ x us', us = x :: us' ∧ (ts.head? = some x ∨ x = m.result)
  | a :: b :: rest, us, h => by
    rw [first] at h
    split at h
    next hab =>
      cases h
      rw [hab.1, hab.2]
      exact ⟨here rest, _, _, rfl, .inr rfl⟩
    next hab =>
      obtain ⟨us, hus, rfl⟩ := Option.map_eq_some_iff.mp h
      obtain ⟨hP, x, us, rfl, hx⟩ := first_induction here later hus
      exact ⟨later a b rest x us hab (hx.imp_left fun h => (Option.some.inj h).symm) hP, a, _, rfl, .inl rfl⟩

theorem length_first (h : m.first ts = some us) : us.length < ts.length := by
  refine (first_induction (P := fun ts us => us.length < ts.length) (fun _ => ?_) (fun _ _ _ _ _ _ _ h => ?_) h).1
  · simp
  · simpa using h

theorem first_kept (hl : m'.left ≠ m.result) (hr : m'.right ≠ m.result) (h : m.first ts = some us) :
    m'.first ts = none → m'.first us = none := by
  refine (first_induction (P := fun ts us => m'.first ts = none → m'.first us = none) (fun rest => ?_)
    (fun a b rest x us _ hx ih hnone => ?_) h).1
  · cases rest with
    | nil => exact fun _ => rfl
    | cons c rest =>
      rw [first_cons_none, first_cons_none, first_cons_none]
      exact fun hnone => ⟨fun hc => hl hc.1.symm, hnone.2.2⟩
  · rw [first_cons_none] at hnone ⊢
    refine ⟨fun hax => ?_, ih hnone.2⟩
    rcases hx with rfl | rfl
    · exact hnone.1 hax
    · exact hr hax.2.symm

theorem apply_first (hr : m.right ≠ m.result) (h : m.first ts = some us) : m.apply ts = m.apply us := by
  refine (first_induction (P := fun ts us => m.apply ts = m.apply us) (fun rest => ?_)
    (fun a b rest x us hab hx ih => ?_) h).1
  · exact if_pos ⟨rfl, rfl⟩
  · have hax : ¬(a = m.left ∧ x = m.right) := by
      rcases hx with rfl | rfl
      · exact hab
      · exact fun hax => hr hax.2.symm
    simp only [apply, pass, if_neg hab, if_neg hax] at ih ⊢
    rw [ih]

theorem apply_of_first_none (h : m.first ts = none) : m.apply ts = ts := by
  have hpass : ∀ rest token, m.first (token :: rest) = none → m.pass token rest = token :: rest := by
    intro rest
    induction rest with
    | nil => exact fun _ _ => rfl
    | cons next rest ih =>
      intro token h
      rw [first_cons_none] at h
      rw [pass, if_neg h.1, ih next h.2]
  cases ts with
  | nil => rfl
  | cons token rest => exact hpass rest token h

end BpeMerge

/-- The leftmost occurrence of the pair of the first merge that occurs is replaced. -/
def standardStep (merges : List BpeMerge) (tokens : List Nat) : Option (List Nat) := merges.findSome? (·.first tokens)

/-- Byte-pair merging as it is defined: a step as long as there is one. -/
inductive StandardRun (merges : List BpeMerge) : List Nat → List Nat → Prop
  | done {ts : List Nat} : standardStep merges ts = none → StandardRun merges ts ts
  | step {ts us vs : List Nat} : standardStep merges ts = some us → StandardRun merges us vs → StandardRun merges ts vs

/-- A byte, or the result of one of the merges. -/
def MadeBy (merges : List BpeMerge) (token : Nat) : Prop := token < 256 ∨ ∃ m ∈ merges, m.result = token

section
variable {pre post : List BpeMerge} {m : BpeMerge} {ts us : List Nat}

theorem standardStep_first (hpre : ∀ m' ∈ pre, m'.first ts = none) (h : m.first ts = some us) :
    standardStep (pre ++ m :: post) ts = some us := by
  rw [standardStep, findSome?_append, findSome?_eq_none_iff.mpr hpre, Option.none_or, findSome?_cons, h]

theorem apply_runs (hm : ∀ m' ∈ pre ++ [m], m'.left ≠ m.result ∧ m'.right ≠ m.result)
    (hpre : ∀ m' ∈ pre, m'.first ts = none) :
    (∀ m' ∈ pre ++ [m], m'.first (m.apply ts) = none) ∧
      ∀ vs, StandardRun (pre ++ m :: post) (m.apply ts) vs → StandardRun (pre ++ m :: post) ts vs := by
  induction hn : ts.length using Nat.strongRecOn generalizing ts with
  | _ n ih =>
    cases h : m.first ts with
    | none =>
      rw [BpeMerge.apply_of_first_none h]
      refine ⟨fun m' hm' => ?_, fun _ hv => hv⟩
      rcases mem_append.mp hm' with hm' | hm'
      · exact hpre m' hm'
      · rwa [mem_singleton.mp hm']
    | some us =>
      have hlt := BpeMerge.length_first h
      have hkept : ∀ m' ∈ pre, m'.first us = none := fun m' hm' =>
        have hne := hm m' (mem_append_left _ hm')
        BpeMerge.first_kept hne.1 hne.2 h (hpre m' hm')
      obtain ⟨hnone, hrun⟩ := ih us.length (hn ▸ hlt) hkept rfl
      rw [BpeMerge.apply_first (hm m (by simp)).2 h]
      exact ⟨hnone, fun vs hv => .step (standardStep_first hpre h) (hrun vs hv)⟩

theorem MadeBy.snoc {t : Nat} (h : MadeBy pre t) : MadeBy (pre ++ [m]) t :=
  h.imp_right fun ⟨m', hm', ht⟩ => ⟨m', mem_append_left _ hm', ht⟩

end

namespace BpeTokenizer
variable {bpe : BpeTokenizer}

/-- Every merge has its own result, which is no byte, and takes bytes and results of earlier merges. -/
structure Layered (bpe : BpeTokenizer) : Prop where
  result : ∀ m ∈ bpe.merges, 256 ≤ m.result
  differ : bpe.merges.Pairwise (·.result ≠ ·.result)
  made : ∀ pre m post, bpe.merges = pre ++ m :: post → MadeBy pre m.left ∧ MadeBy pre m.right

theorem Layered.foldl_runs (h : Layered bpe) (post : List BpeMerge) : ∀ pre ts, bpe.merges = pre ++ post →
      (∀ m ∈ pre, (MadeBy pre m.left ∧ MadeBy pre m.right) ∧ m.first ts = none) →
      StandardRun bpe.merges ts (post.foldl (fun tokens m => m.apply tokens) ts) := by
  induction post with
  | nil =>
    intro pre ts hpre hdone
    refine .done (findSome?_eq_none_iff.mpr fun m hm => (hdone m ?_).2)
    rwa [hpre, append_nil] at hm
  | cons m post ih =>
    intro pre ts hpre hdone
    have hmake : ∀ m' ∈ pre ++ [m], MadeBy pre m'.left ∧ MadeBy pre m'.right := by
      intro m' hm'
      rcases mem_append.mp hm' with hm' | hm'
      · exact (hdone m' hm').1
      · rw [mem_singleton.mp hm']
        exact h.made pre m post hpre
    -- what is there before the merge is not its result
    have hne : ∀ t, MadeBy pre t → t ≠ m.result := by
      rintro t (ht | ⟨m', hm', rfl⟩)
      · have := h.result m (by simp [hpre])
        omega
      · have hdiff := h.differ
        rw [hpre, pairwise_append] at hdiff
        exact hdiff.2.2 m' hm' m mem_cons_self
    obtain ⟨hnone, hrun⟩ := @apply_runs pre post m ts
      (fun m' hm' => ⟨hne _ (hmake m' hm').1, hne _ (hmake m' hm').2⟩) fun m' hm' => (hdone m' hm').2
    have htail := ih (pre ++ [m]) (m.apply ts) (by rw [hpre, append_assoc]; rfl) fun m' hm' =>
      ⟨⟨(hmake m' hm').1.snoc, (hmake m' hm').2.snoc⟩, hnone m' hm'⟩
    rw [hpre] at htail ⊢
    exact hrun _ htail

theorem bpeEncode_standard (h : Layered bpe) (text : List UInt8) (maxTokens : Nat) (hlen : text.length ≤ maxTokens) :
    StandardRun bpe.merges (text.map UInt8.toNat) (bpe.bpeEncode text maxTokens) := by
  rw [bpeEncode, take_of_length_le hlen]
  exact h.foldl_runs bpe.merges [] _ rfl fun _ hm => absurd hm not_mem_nil

def hiTokenizer : BpeTokenizer where
  vocabSize := 258
  vocab i := if i = 256 then [104, 105] else if i = 257 then [104, 105, 33] else [UInt8.ofNat i]
  merges := [⟨104, 105, 256⟩, ⟨256, 33, 257⟩]

theorem bpeEncode_standard_hi : StandardRun hiTokenizer.merges [104, 105, 33] [257] := by
  refine @bpeEncode_standard hiTokenizer ⟨by decide, by decide, fun pre m post h => ?_⟩ [104, 105, 33] 3
    (by decide)
  obtain _ | ⟨m1, _ | ⟨m2, pre⟩⟩ := pre
  · obtain ⟨rfl, -⟩ := cons.inj h
    exact ⟨.inl (by decide), .inl (by decide)⟩
  · obtain ⟨rfl, htail⟩ := cons.inj h
    obtain ⟨rfl, -⟩ := cons.inj htail
    exact ⟨.inr ⟨_, mem_cons_self, rfl⟩, .inl (by decide)⟩
  · simp [hiTokenizer] at h

theorem decodeFrom_eq {maxOut : UInt32} {tokens : List Nat} (hvalid : ∀ t ∈ tokens, t < bpe.vocabSize) :
    ∀ out, (out ++ tokens.flatMap bpe.vocab).length < maxOut.toNat →
      bpe.decodeFrom maxOut out tokens = out ++ tokens.flatMap bpe.vocab := by
  induction tokens with
  | nil => exact fun out _ => (append_nil out).symm
  | cons tid rest ih =>
    intro out hlen
    rw [flatMap_cons, ← append_assoc] at hlen ⊢
    have hsum : out.length + (bpe.vocab tid).length < maxOut.toNat := by
      simp only [length_append] at hlen
      omega
    have hfits : ¬maxOut ≤ ofNat (out.length + (bpe.vocab tid).length) := by
      rw [le_iff_toNat_le, toNat_ofNat_of_lt' (Nat.lt_trans hsum maxOut.toNat_lt)]
      omega
    rw [decodeFrom, if_neg (Nat.not_le.mpr (hvalid tid mem_cons_self)), if_neg hfits]
    exact ih (fun t ht => hvalid t (mem_cons_of_mem _ ht)) _ hlen

/-- A byte stands for itself, and the result of a merge for its two tokens. -/
structure Spells (bpe : BpeTokenizer) : Prop where
  byte : ∀ b : UInt8, b.toNat < bpe.vocabSize ∧ bpe.vocab b.toNat = [b]
  merge : ∀ m ∈ bpe.merges, m.result < bpe.vocabSize ∧ bpe.vocab m.result = bpe.vocab m.left ++ bpe.vocab m.right

theorem Spells.bpeEncode (h : Spells bpe) (text : List UInt8) (maxTokens : Nat) (hlen : text.length ≤ maxTokens) :
    (bpe.bpeEncode text maxTokens).flatMap bpe.vocab = text ∧ ∀ t ∈ bpe.bpeEncode text maxTokens, t < bpe.vocabSize := by
  rw [BpeTokenizer.bpeEncode, take_of_length_le hlen]
  refine foldlRecOn (motive := fun ts : List Nat => ts.flatMap bpe.vocab = text ∧ ∀ t ∈ ts, t < bpe.vocabSize) _ _
    ⟨?_, ?_⟩ fun ts hts m hm => ⟨?_, fun t ht => ?_⟩
  · rw [flatMap_map]
    simp [h.byte]
  · intro t ht
    obtain ⟨b, -, rfl⟩ := mem_map.mp ht
    exact (h.byte b).1
  · rw [BpeMerge.flatMap_apply (h.merge m hm).2]
    exact hts.1
  · rcases BpeMerge.mem_apply ht with rfl | ht
    · exact (h.merge m hm).1
    · exact hts.2 t ht

theorem bpe_lossless (h : Spells bpe) (text : List UInt8) (maxTokens : Nat) (maxOut : UInt32)
    (hlen : text.length ≤ maxTokens) (hout : text.length < maxOut.toNat) :
    bpe.bpeDecode (bpe.bpeEncode text maxTokens) maxOut = (text ++ [0], ofNat text.length) := by
  obtain ⟨htext, hvalid⟩ := h.bpeEncode text maxTokens hlen
  rw [bpeDecode, decodeFrom_eq hvalid, htext]
  · rfl
  · rw [htext]
    exact hout

theorem bpe_lossless_hi :
    hiTokenizer.bpeDecode (hiTokenizer.bpeEncode [104, 105, 33] 3) 4 = ([104, 105, 33, 0], 3) := by
  refine bpe_lossless ⟨fun b => ?_, by decide⟩ [104, 105, 33] 3 4 (by decide) (by decide)
  have hlt := b.toNat_lt
  have hvocab : hiTokenizer.vocab b.toNat = [UInt8.ofNat b.toNat] := (if_neg (by omega)).trans (if_neg (by omega))
  exact ⟨Nat.lt_trans hlt (by decide), hvocab.trans (by simp)⟩

end BpeTokenizer

end Limnx
