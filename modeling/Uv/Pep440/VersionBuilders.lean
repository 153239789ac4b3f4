import Uv.Pep440.Version

/-!
# Builders

A builder sets its own component of a version and leaves all others alone.  This
holds on every version, so in whatever order builders are called: also for the
internal components with any number, and whether or not the version has to leave
its packed form.
-/

namespace Uv.Pep440

namespace Version

/-- The components as the accessors give them. -/
def components (version : Version) : VersionFull where
  epoch := version.epoch
  release := version.release
  min := version.min
  max := version.max
  pre := version.pre
  post := version.post
  dev := version.dev
  localVersion := version.localVersion

theorem components_eq (version : Version) :
    version.components = version.makeFull := by
  cases version <;> rfl

/-- On every version each builder replaces its own component, and the other
accessors give what they gave before. -/
theorem components_builders (version : Version) :
    (∀ numbers, (version.withRelease numbers).components =
      { version.components with release := numbers }) ∧
    (∀ value, (version.withEpoch value).components =
      { version.components with epoch := value }) ∧
    (∀ value, (version.withPre value).components =
      { version.components with pre := value }) ∧
    (∀ value, (version.withPost value).components =
      { version.components with post := value }) ∧
    (∀ value, (version.withDev value).components =
      { version.components with dev := value }) ∧
    (∀ value, (version.withLocal value).components =
      { version.components with localVersion := value }) ∧
    (∀ value, (version.withMin value).components =
      { version.components with min := value }) ∧
    ∀ value, (version.withMax value).components =
      { version.components with max := value } := by
  simp only [components_eq]
  exact ⟨makeFull_withRelease version, makeFull_withEpoch version,
    makeFull_withPre version, makeFull_withPost version, makeFull_withDev version,
    makeFull_withLocal version, makeFull_withMin version, makeFull_withMax version⟩

/-- A packed version with a post release leaves its packed form when it gets an
epoch. -/
example : (((new [1, 2]).withPost (some 3)).withEpoch 4).components =
    { releaseOnly [1, 2] with epoch := 4, post := some 3 } := by
  simp [components_eq]

end Version

end Uv.Pep440
