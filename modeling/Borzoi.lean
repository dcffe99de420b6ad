import Borzoi.Assembly.DocIdOwnKey
import Borzoi.Assembly.OpName
import Borzoi.Assembly.Pickle
import Borzoi.Assembly.SequencePoints
import Borzoi.Assembly.Shape
import Borzoi.Assembly.SignatureCodec
import Borzoi.Assembly.TablesExact
import Borzoi.Cst.CursorLossless
import Borzoi.Cst.Escapes
import Borzoi.Cst.NumericExact
import Borzoi.Cst.VersionInvariance
import Borzoi.Directives.ExprGrammar
import Borzoi.Directives.LineMap
import Borzoi.Directives.Modes
import Borzoi.Directives.Resume
import Borzoi.LexFilter.Blocks
import Borzoi.LexFilter.Conservation
import Borzoi.LexFilter.ParenDepth
import Borzoi.LexFilter.PutBack
import Borzoi.LexFilter.Safety
import Borzoi.LexFilter.Termination
import Borzoi.Lsp.MarkdownPrinted
import Borzoi.Lsp.ProjectGraphExact
import Borzoi.Lsp.Publish
import Borzoi.Lsp.SemanticTokens
import Borzoi.Lsp.XmlDepth
import Borzoi.MSBuild.ConditionExtent
import Borzoi.MSBuild.GlobExpansion
import Borzoi.MSBuild.JsonExact
import Borzoi.MSBuild.SdkSelection
import Borzoi.NuGet.ConflictRounds
import Borzoi.NuGet.FrameworkNearestExact
import Borzoi.NuGet.RangePrint
import Borzoi.NuGet.ResolverOrder
import Borzoi.Sema.ItemOwners
import Borzoi.Sema.MatchSound
import Borzoi.Sema.OverloadOrder
import Borzoi.Sema.RenderInjective
import Borzoi.Sema.ScreenedPath
import Borzoi.Sema.UnifyRuns
