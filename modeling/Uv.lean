import Uv.Auth.Index
import Uv.Auth.Lookup
import Uv.CacheKey.Equality
import Uv.Client.Age
import Uv.Client.CacheControlGrammar
import Uv.Client.CacheEntry
import Uv.Client.MalformedHeaders
import Uv.DistInfoName
import Uv.DistributionFilename.CacheKey
import Uv.DistributionFilename.SourceDist
import Uv.DistributionFilename.WheelRoundTrip
import Uv.DistributionTypes.BestWheel
import Uv.Fs.RelativeTo
import Uv.InstallWheel.Uninstall
import Uv.OnceMap.Atomic
import Uv.Pep440.FastPath
import Uv.Pep508.Agreement
import Uv.Pep508.GrammarScan
import Uv.Pep508.Projections
import Uv.Pep508.PythonVersionLists
import Uv.Pep508.Sharing
import Uv.Pep508.TopLevelExtra
import Uv.PlatformTags.FromEnv
import Uv.PypiTypes.RequiresTxt
import Uv.PypiTypes.SchemaConflicts
import Uv.Requirements.EscapedBreaks
import Uv.Requirements.Inclusion
import Uv.Resolver.Activation
import Uv.Resolver.CandidateOrder
import Uv.Resolver.ConflictMarker
import Uv.Resolver.ConflictingItems
import Uv.Resolver.FindEnvironments
import Uv.Resolver.Forks
import Uv.Resolver.InstallFlags
import Uv.Resolver.LockEnvironments
import Uv.Resolver.LockFileRoundTrip
import Uv.Resolver.RangeSpecifiers
import Uv.Resolver.ResolveConflicts
import Uv.Resolver.WheelTagFilter
import Uv.Scripts.ScriptBlock
import Uv.Workspace.GroupCycles
