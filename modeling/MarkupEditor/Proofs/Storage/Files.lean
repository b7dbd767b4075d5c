import MarkupEditor.Proofs.Storage.FileTree
import MarkupEditor.Storage.Basic
import MarkupEditor.Proofs.Store.Contents

namespace MarkupEditor

-- The files of a storage: the one that a path names, and the text of each. Several paths may name one file. A text that is
-- taken is loaded again, a write changes the text of no other file and a refused one of none, and a path to a file whose text
-- stays does not stop leading to it. A path that leads nowhere may come to lead to a file, by the directories that are made.
structure Storage.Files (σ : Type) [Storage σ] where
  File : Type
  named : σ → String → File
  text? : σ → File → Option String
  loaded {m : σ} {path text : String} : Storage.load m path = .ok text → text? m (named m path) = some text
  taken {m m' : σ} {path text : String} : Storage.save m path text = (m', none) → Storage.load m' path = .ok text
  stays {m m' : σ} {path text : String} {fault : Option FileFault} : Storage.save m path text = (m', fault) → named m' = named m
  others {m m' : σ} {path text : String} {fault : Option FileFault} {file : File} : Storage.save m path text = (m', fault) →
    (fault = none → file ≠ named m path) → text? m' file = text? m file
  kept {m m' : σ} {path text other stored : String} {fault : Option FileFault} : Storage.save m path text = (m', fault) →
    (fault = none → named m other ≠ named m path) → Storage.load m other = .ok stored → Storage.load m' other = .ok stored

namespace MemoryFiles

variable {m m' : MemoryFiles} {path text : String} {fault : Option FileFault}

theorem load_eq_ok_iff : Storage.load m path = .ok text ↔ m.texts.get? path = some text := by
  simp only [Storage.load]
  cases m.texts.get? path <;> simp

theorem save_cases (saved : Storage.save m path text = (m', fault)) :
    fault ≠ none ∧ m' = m ∨ fault = none ∧ m'.texts = m.texts.set path text := by
  simp only [Storage.save] at saved
  split at saved
  · cases saved
    exact .inl ⟨Option.some_ne_none _, rfl⟩
  · cases saved
    exact .inr ⟨rfl, rfl⟩

theorem get?_saved {other : String} (saved : Storage.save m path text = (m', fault)) (differs : fault = none → other ≠ path) :
    m'.texts.get? other = m.texts.get? other := by
  rcases save_cases saved with ⟨_, rfl⟩ | ⟨done, texts⟩
  · rfl
  · rw [texts, Store.get?_set, if_neg (differs done)]

def files : Storage.Files MemoryFiles where
  File := String
  named _ path := path
  text? m path := m.texts.get? path
  loaded := load_eq_ok_iff.mp
  taken saved := by
    obtain ⟨_, texts⟩ := (save_cases saved).resolve_left fun refused => refused.1 rfl
    rw [load_eq_ok_iff, texts, Store.get?_set, if_pos rfl]
  stays _ := rfl
  others := get?_saved
  kept saved differs stored := load_eq_ok_iff.mpr ((get?_saved saved differs).trans (load_eq_ok_iff.mp stored))

end MemoryFiles

namespace DiskFiles

variable {d d' : DiskFiles} {path text : String} {fault : Option FileFault}

theorem save_tree (saved : Storage.save d path text = (d', fault)) :
    d'.directory = d.directory ∧ d.tree.save (Path.join d.directory path) (Text.encode text) = (d'.tree, fault) := by
  simp only [Storage.save] at saved
  rcases tree : d.tree.save (Path.join d.directory path) (Text.encode text) with ⟨t, fault'⟩
  rw [tree] at saved
  cases saved
  exact ⟨rfl, rfl⟩

-- Paths that lead to the same place name the same file.
def files : Storage.Files DiskFiles where
  File := List String
  named d path := FileTree.fileOf (Path.join d.directory path)
  text? d file := d.tree.text? file
  loaded loaded := (FileTree.readText_eq_ok_iff.mp loaded).2.2
  taken saved := by
    obtain ⟨directory, saved⟩ := save_tree saved
    simp only [Storage.load, directory]
    exact FileTree.readText_saved saved
  stays saved := by
    funext path
    rw [(save_tree saved).1]
  others saved differs := FileTree.text?_save (save_tree saved).2 differs
  kept saved differs loaded := by
    obtain ⟨directory, saved⟩ := save_tree saved
    simp only [Storage.load, directory] at loaded ⊢
    exact FileTree.readText_save saved differs loaded

end DiskFiles

end MarkupEditor
