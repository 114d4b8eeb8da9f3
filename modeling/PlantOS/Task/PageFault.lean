import PlantOS.Task.NewPages

/-!
# Page faults

`page_fault_handler` looks at the faulting address only. Whether the page was missing or the access was not
allowed, it maps a new page of zeros as soon as the address lies in an area; and if there is no frame for a
page table, it returns without having mapped the page.

The handler clears the new frame, and makes the page tables, under the page table of the process. The result is
therefore for states in which no user page is at the address of a frame that the kernel uses.

Reference: `cpu/isr.c`.
-/

namespace PlantOS.Task

open PlantOS.Mm

/-- The handler kills the task or maps a page that was missing, and every page that was mapped has its frame
and its contents afterwards. Through the identity map a process also sees the free frames and the page tables;
the contents of these are not part of its pages. -/
structure FaultSafe (roots : ℕ → Prop) (s : Vm) (t : Proc) (cr2 : ℕ) : Prop where
  maps : (pageFaultHandler s t cr2).1 = true →
    physAddr s.mem t.cr3 cr2 = none ∧ physAddr (pageFaultHandler s t cr2).2.mem t.cr3 cr2 ≠ none
  frame : ∀ r v a, roots r → physAddr s.mem r v = some a →
    physAddr (pageFaultHandler s t cr2).2.mem r v = some a
  contents : ∀ f, s.Used f → ¬IsTable s.mem roots f → (pageFaultHandler s t cr2).2.mem f = s.mem f

section

variable {K : Kernel} {excl : Prop} {roots : ℕ → Prop} {s : Vm} {t : Proc} {cr2 : ℕ}

theorem pagePath_page (v : ℕ) : pagePath (v / 4096 * 4096) = pagePath v :=
  pagePath_eq_iff.2 (by omega)

/-- The handler does nothing, or it maps a new page. -/
theorem pageFaultHandler_cases (h : FrameInv K excl roots s) (t : Proc) (cr2 : ℕ) :
    (¬((vmaFind t.vmas cr2).isSome ∧ s.freePages.Nonempty) ∧ pageFaultHandler s t cr2 = (false, s)) ∨
      ((vmaFind t.vmas cr2).isSome ∧ s.freePages.Nonempty ∧ ∃ flags, flags < 4096 ∧ Present flags ∧
        pageFaultHandler s t cr2 = mapNewPage s t.cr3 (cr2 / 4096 * 4096) flags) := by
  rw [pageFaultHandler_eq]
  cases hfind : vmaFind t.vmas cr2 with
  | none => exact .inl ⟨fun hc => Bool.false_ne_true hc.1, rfl⟩
  | some v =>
    dsimp only
    obtain hempty | hfree := s.freePages.eq_empty_or_nonempty
    · refine .inl ⟨fun hc => ?_, mapNewPage_empty h.used_zero hempty _ _⟩
      rw [hempty] at hc
      exact Finset.not_nonempty_empty hc.2
    · refine .inr ⟨rfl, hfree, _, ?_, ?_, rfl⟩
      · split <;> decide
      · split <;> decide

/-- The handler keeps what is mapped exactly if the page of the fault was missing and can be mapped, or if it
kills the task. -/
theorem faultSafe_iff (h : FrameInv K excl roots s) (hr : roots t.cr3) :
    FaultSafe roots s t cr2 ↔
      ((vmaFind t.vmas cr2).isSome → s.freePages.Nonempty →
        physAddr s.mem t.cr3 cr2 = none ∧ PageReady s t.cr3 cr2) := by
  have hpath := pagePath_page cr2
  have hpage : PageReady s t.cr3 (cr2 / 4096 * 4096) ↔ PageReady s t.cr3 cr2 :=
    and_congr_right fun _ => mappable_congr hpath
  obtain ⟨hnot, heq⟩ | ⟨harea, hfree, flags, hlt, hp, heq⟩ := pageFaultHandler_cases h t cr2
  · refine iff_of_true ⟨?_, ?_, ?_⟩ fun harea hfree => absurd ⟨harea, hfree⟩ hnot
    · rw [heq]
      exact fun hf => absurd hf Bool.false_ne_true
    · rw [heq]
      exact fun r v a _ ha => ha
    · rw [heq]
      exact fun f _ _ => rfl
  obtain ⟨htrue, hclears, hmaps, hsame⟩ := mapNewPage_free h hr hfree (cr2 / 4096 * 4096) hlt
  rw [← heq, hpage] at hmaps hsame
  rw [← heq] at htrue hclears
  have hentry : Present (s.alloc.1 ||| flags) := (present_or hclears.fresh.aligned hlt).2 hp
  constructor
  · intro hsafe _ _
    obtain ⟨hnone, hsome⟩ := hsafe.maps htrue
    refine ⟨hnone, not_not.1 fun hready => hsome ?_⟩
    rw [hsame hready _ _ hr, hnone]
  · intro hcond
    obtain ⟨hnone, hready⟩ := hcond harea hfree
    have hone := hmaps hready
    refine ⟨fun _ => ⟨hnone, ?_⟩, fun r v a hrv ha => ?_, fun f hf ht => (hclears.data f hf ht).2⟩
    · rw [hone _ _ hr, if_pos ⟨rfl, hpath.symm⟩, ptPhys, if_pos hentry]
      exact Option.some_ne_none _
    · rw [hone _ _ hrv, if_neg, ha]
      rintro ⟨rfl, hv⟩
      rw [(physAddr_eq_none_congr (hv.trans hpath)).2 hnone] at ha
      cases ha

end

end PlantOS.Task
