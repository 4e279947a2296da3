import Mathlib.Data.List.Nodup

namespace RocTui.Lib

/-- A speaker on a shared channel: what it has prepared but not yet said, and whether it will
prepare nothing more. -/
structure Voice (Key Msg : Type) where
  key : Key
  unsent : List Msg
  ended : Bool

namespace Voice

variable {Key Msg : Type}

/-- Each voice has said its own script up to what it still holds back, and no one else has said
anything.  `hello` is what a newcomer begins with. -/
structure Chorus (hello : Key → List Msg) (said : Key → List Msg)
    (script : Key → Bool → List Msg) (voices : List (Voice Key Msg)) : Prop where
  distinct : (voices.map key).Nodup
  speaks : ∀ v ∈ voices, said v.key ++ v.unsent = script v.key v.ended
  silent : ∀ k ∉ voices.map key, said k = [] ∧ script k false = hello k

namespace Chorus

variable {hello said said' : Key → List Msg} {script script' : Key → Bool → List Msg}
  {voices before after : List (Voice Key Msg)} {v v' : Voice Key Msg}

theorem none (h : ∀ k, said k = [] ∧ script k false = hello k) : Chorus hello said script [] where
  distinct := List.nodup_nil
  speaks := by simp
  silent := fun k _ => h k

theorem replace (h : Chorus hello said script (before ++ v :: after)) (hkey : v'.key = v.key)
    (hsaid : ∀ k, k ≠ v.key → said' k = said k)
    (hscript : ∀ k, k ≠ v.key → script' k = script k)
    (hv : said' v.key ++ v'.unsent = script' v.key v'.ended) :
    Chorus hello said' script' (before ++ v' :: after) := by
  have keys : (before ++ v' :: after).map key = (before ++ v :: after).map key := by simp [hkey]
  have others : ∀ u ∈ before ++ after, u.key ≠ v.key := by
    have distinct := h.distinct
    simp only [List.map_append, List.map_cons, List.nodup_middle, List.nodup_cons] at distinct
    intro u hu heq
    apply distinct.1
    rw [← List.map_append, ← heq]
    exact List.mem_map_of_mem hu
  refine ⟨by rw [keys]; exact h.distinct, ?_, ?_⟩
  · intro u hu
    rw [List.mem_append, List.mem_cons] at hu
    have stays : u ∈ before ++ after → said' u.key ++ u.unsent = script' u.key u.ended := by
      intro hmem
      rw [hsaid _ (others u hmem), hscript _ (others u hmem)]
      apply h.speaks
      rw [List.mem_append] at hmem
      simp only [List.mem_append, List.mem_cons]
      exact hmem.imp_right .inr
    rcases hu with hb | rfl | ha
    · exact stays (List.mem_append_left _ hb)
    · rw [hkey]
      exact hv
    · exact stays (List.mem_append_right _ ha)
  · intro k hk
    rw [keys] at hk
    have hne : k ≠ v.key := by
      rintro rfl
      simp at hk
    rw [hsaid k hne, hscript k hne]
    exact h.silent k hk

theorem join {k : Key} (h : Chorus hello said script voices) (hk : k ∉ voices.map key) :
    Chorus hello said script (voices ++ [⟨k, hello k, false⟩]) := by
  refine ⟨?_, ?_, ?_⟩
  · rw [List.map_append, List.nodup_append]
    refine ⟨h.distinct, List.nodup_singleton _, ?_⟩
    intro a ha b hb heq
    simp only [List.map_cons, List.map_nil, List.mem_singleton] at hb
    rw [heq, hb] at ha
    exact hk ha
  · intro v hv
    rw [List.mem_append, List.mem_singleton] at hv
    rcases hv with hv | rfl
    · exact h.speaks v hv
    · have new := h.silent k hk
      simp [new.1, new.2]
  · intro j hj
    apply h.silent
    intro hmem
    apply hj
    rw [List.map_append]
    exact List.mem_append_left _ hmem

theorem leave (h : Chorus hello said script (voices ++ [v]))
    (hv : said v.key = [] ∧ script v.key false = hello v.key) :
    Chorus hello said script voices := by
  refine ⟨?_, ?_, ?_⟩
  · have distinct := h.distinct
    rw [List.map_append] at distinct
    exact distinct.of_append_left
  · exact fun u hu => h.speaks u (List.mem_append_left _ hu)
  · intro k hk
    by_cases heq : k = v.key
    · rw [heq]
      exact hv
    · apply h.silent
      simp only [List.map_append, List.mem_append, not_or]
      exact ⟨hk, by simpa using heq⟩

theorem said_begins (h : Chorus hello said script voices)
    (hscript : ∀ k, script k false <+: script k true) (k : Key) : said k <+: script k true := by
  by_cases hk : k ∈ voices.map key
  · rw [List.mem_map] at hk
    obtain ⟨v, hv, rfl⟩ := hk
    refine List.IsPrefix.trans ⟨_, h.speaks v hv⟩ ?_
    cases v.ended
    · exact hscript v.key
    · exact List.prefix_rfl
  · rw [(h.silent k hk).1]
    exact List.nil_prefix

end Chorus

end Voice

end RocTui.Lib
