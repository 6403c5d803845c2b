import Cookbook.ModSecurity.Arguments.Cookies
import Cookbook.ModSecurity.Arguments.Rebuild
import Cookbook.ModSecurity.AuditLog.LimitedLine
import Cookbook.ModSecurity.AuditLog.MaskedBody
import Cookbook.ModSecurity.AuditLog.ShownChains
import Cookbook.ModSecurity.AuditParser.Parts
import Cookbook.ModSecurity.Geo.CityRecord
import Cookbook.ModSecurity.Hash.Mac
import Cookbook.ModSecurity.Hash.Methods
import Cookbook.ModSecurity.Hash.SignedLinks
import Cookbook.ModSecurity.JsonBody.ArgumentNames
import Cookbook.ModSecurity.Mlogc.Framing
import Cookbook.ModSecurity.Mlogc.QueueFiles
import Cookbook.ModSecurity.Mlogc.Restart
import Cookbook.ModSecurity.Multipart.Offsets
import Cookbook.ModSecurity.Multipart.Preserved
import Cookbook.ModSecurity.Operators.ContainsWord
import Cookbook.ModSecurity.Operators.Gsb
import Cookbook.ModSecurity.Operators.Luhn
import Cookbook.ModSecurity.Operators.Utf8Encoding
import Cookbook.ModSecurity.Persist.Counters
import Cookbook.ModSecurity.Persist.DamagedRecords
import Cookbook.ModSecurity.Persist.ExpiredVariables
import Cookbook.ModSecurity.Persist.KeptUpdates
import Cookbook.ModSecurity.Phrases.DecodedContent
import Cookbook.ModSecurity.Phrases.FoundPhrases
import Cookbook.ModSecurity.Phrases.LoadedPhrases
import Cookbook.ModSecurity.Radix.AgreeingLoaders
import Cookbook.ModSecurity.Radix.Entries
import Cookbook.ModSecurity.Rsub.StoredParam
import Cookbook.ModSecurity.Rsub.SubstitutedBody
import Cookbook.ModSecurity.Rules.ActionAccounts
import Cookbook.ModSecurity.Rules.ExpandMacros
import Cookbook.ModSecurity.Rules.MultiMatch
import Cookbook.ModSecurity.Rules.Remove
import Cookbook.ModSecurity.Rules.SkipUnits
import Cookbook.ModSecurity.Text.BackslashEscapes
import Cookbook.ModSecurity.Text.CmdLine
import Cookbook.ModSecurity.Text.CssEscapes
import Cookbook.ModSecurity.Text.DecodedBase64
import Cookbook.ModSecurity.Text.DecodedEntities
import Cookbook.ModSecurity.Text.PathCanonical
import Cookbook.ModSecurity.Text.PlacedComments
import Cookbook.ModSecurity.Text.SqlHexDecoded
import Cookbook.ModSecurity.Text.UnicodeText
import Cookbook.ModSecurity.Text.UrlEncode
import Cookbook.PSReadLine.BoundedList
import Cookbook.PSReadLine.KillRuns
import Cookbook.PSReadLine.Sessions
import Cookbook.PSReadLine.UnfinishedLine
import Cookbook.PSReadLine.LineMotions
import Cookbook.PSReadLine.WordMotions
import Cookbook.PSReadLine.Braces
import Cookbook.PSReadLine.UndoRedo
import Cookbook.PSReadLine.TokenMotions
import Cookbook.PSReadLine.NumericArguments
import Cookbook.PSReadLine.InteractiveSearch
import Cookbook.PSReadLine.RowMotions
import Cookbook.PSReadLine.Completion
import Cookbook.PSReadLine.DigitArgument
import Cookbook.ModSecurity.Html5.Tokens
import Cookbook.PSReadLine.EditCommands
import Cookbook.PSReadLine.ChordGrammar
import Cookbook.ModSecurity.Phrases.ChildIndex
import Cookbook.ModSecurity.Phrases.Reported
