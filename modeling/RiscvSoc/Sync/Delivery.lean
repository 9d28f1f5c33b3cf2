import RiscvSoc.Sync.Cycles

/-!
# Sync — Delivery

What goes through a queue. Each cycle may add a word behind the others
and take one from the front; no cycle changes the order. So the words
taken are the words added, in order and each once, up to those that are
still in the queue, and a word waits for no more rounds than there are
words before it.
-/

namespace RiscvSoc.Sync

variable {α : Type _}

/-- The words of the cycles before `n`, in order. -/
def words (p : Nat → Option α) (n : Nat) : List α := (List.range n).filterMap p

theorem words_succ (p : Nat → Option α) (n : Nat) :
    words p (n + 1) = words p n ++ (p n).toList := by
  rw [words, List.range_succ, List.filterMap_append]
  cases h : p n <;> simp [words, h]

variable (content : Nat → List α) {added taken : Nat → Option α} {n : Nat}

/-- **No word is lost, repeated or overtaken.** -/
theorem append_words
    (hnext : ∀ k, k < n → content k ++ (added k).toList = (taken k).toList ++ content (k + 1)) :
    content 0 ++ words added n = words taken n ++ content n := by
  induction n with
  | zero => exact List.append_nil _
  | succ n ih =>
      calc content 0 ++ words added (n + 1)
          = content 0 ++ words added n ++ (added n).toList := by
            rw [words_succ, List.append_assoc]
        _ = words taken n ++ (content n ++ (added n).toList) := by
            rw [ih fun k hk => hnext k (Nat.lt_succ_of_lt hk), List.append_assoc]
        _ = words taken (n + 1) ++ content (n + 1) := by
            rw [hnext n (Nat.lt_succ_self n), words_succ, List.append_assoc]

/-- **What is in the queue gets out**, once the front has been asked for as
often as there are words in it. -/
theorem prefix_words {ready : Nat → Bool}
    (hnext : ∀ k, k < n → content k ++ (added k).toList = (taken k).toList ++ content (k + 1))
    (hready : ∀ k, k < n → ready k = true → content k ≠ [] → (taken k).isSome = true)
    (hlong : (content 0).length ≤ (cycles ready n).length) : content 0 <+: words taken n := by
  -- as long as the queue has not been empty, each request has got a word
  have hor : content 0 <+: words taken n ∨
      (cycles ready n).length ≤ (words taken n).length := by
    clear hlong
    induction n with
    | zero => exact .inr (Nat.le_refl _)
    | succ n ih =>
        have hmore : words taken n <+: words taken (n + 1) := by
          rw [words_succ]
          exact List.prefix_append _ _
        rcases ih (fun k hk => hnext k (by omega)) (fun k hk => hready k (by omega)) with h | h
        · exact .inl (h.trans hmore)
        · cases hr : ready n with
          | false =>
              rw [cycles_succ_of_low hr]
              exact .inr (Nat.le_trans h hmore.length_le)
          | true =>
              by_cases hempty : content n = []
              · have hall := append_words (n := n) content fun k hk => hnext k (by omega)
                rw [hempty, List.append_nil] at hall
                exact .inl ((hall ▸ List.prefix_append _ _).trans hmore)
              · obtain ⟨x, hx⟩ := Option.isSome_iff_exists.mp (hready n (by omega) hr hempty)
                right
                rw [cycles_succ_of_high hr, words_succ, hx, List.length_append,
                  List.length_append]
                exact Nat.add_le_add_right h 1
  rcases hor with h | h
  · exact h
  · have hcontent : content 0 <+: words taken n ++ content n := by
      rw [← append_words content hnext]
      exact List.prefix_append _ _
    exact List.prefix_of_prefix_length_le hcontent (List.prefix_append _ _) (Nat.le_trans hlong h)

end RiscvSoc.Sync
