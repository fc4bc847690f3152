import TextProjection.Master

/-! The master accepts a region that lies inside its text, and refuses any other. -/

set_option autoImplicit false

namespace TextProjection.Master

variable {master : Master} {region : Region} {text : Text}

theorem outside?_of_inside (inside : region.Inside master.length) : master.outside? region = none :=
  Region.outside?_eq_none_iff.mpr inside

theorem outside?_of_not_inside (outside : ¬ region.Inside master.length) :
    master.outside? region = some (.outsideText region master.length) :=
  if_neg outside

theorem get_eq (inside : region.Inside master.length) :
    master.get region = .ok (master.text.slice region) := by
  rw [get, outside?_of_inside inside]

theorem prepare_eq (inside : region.Inside master.length) :
    master.prepare region text = .ok (⟨master.nextEdit, region, text⟩,
      { master with nextEdit := master.nextEdit + 1 }) := by
  rw [prepare, outside?_of_inside inside]

theorem prepare_eq_error (outside : ¬ region.Inside master.length) :
    master.prepare region text = .error (.outsideText region master.length) := by
  rw [prepare, outside?_of_not_inside outside]

theorem commit_eq {edit : Edit} (inside : edit.region.Inside master.length) :
    master.commit edit = .ok { master with
      text := master.text.splice edit.region edit.text
      version := master.version + 1 } := by
  rw [commit, outside?_of_inside inside]

theorem commit_eq_error {edit : Edit} (outside : ¬ edit.region.Inside master.length) :
    master.commit edit = .error (.outsideText edit.region master.length) := by
  rw [commit, outside?_of_not_inside outside]

theorem commit_prepared (inside : region.Inside master.length) :
    commit { master with nextEdit := master.nextEdit + 1 } ⟨master.nextEdit, region, text⟩ =
      .ok ⟨master.text.splice region text, master.version + 1, master.nextEdit + 1⟩ :=
  commit_eq inside

theorem replace_eq (inside : region.Inside master.length) :
    master.replace region text = .ok (⟨master.nextEdit, region, text⟩,
      ⟨master.text.splice region text, master.version + 1, master.nextEdit + 1⟩) := by
  simp only [replace, prepare_eq inside, bind, Except.bind, commit_prepared inside]
  rfl

theorem replace_eq_error (outside : ¬ region.Inside master.length) :
    master.replace region text = .error (.outsideText region master.length) := by
  simp only [replace, prepare_eq_error outside, bind, Except.bind]

end TextProjection.Master
