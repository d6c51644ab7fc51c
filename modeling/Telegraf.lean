import Telegraf.BufferRuns
import Telegraf.InfluxStream
import Telegraf.InfluxRoundTrip
import Telegraf.PostgresqlTags
import Telegraf.PostgresqlWrite
import Telegraf.Ownership
import Telegraf.FlushLoop
import Telegraf.RunningAggregator
import Telegraf.FilterSpec
import Telegraf.HeadReorgs
import Telegraf.Lotus
import Telegraf.PrometheusExpiry
import Telegraf.LoadTipsets
import Telegraf.BasicStats
import Telegraf.KafkaCapacity
import Telegraf.KafkaOffsets
import Telegraf.AzureReports
import Telegraf.StackdriverRequests
import Telegraf.CrateDB
import Telegraf.CsvParser
import Telegraf.PostgresqlTypes
import Telegraf.InfluxReader
import Telegraf.HistogramExact
import Telegraf.SeriesGroups
import Telegraf.FieldTypes
import Telegraf.DedupRuns
import Telegraf.TagLimit
import Telegraf.DropReports
import Telegraf.ConfigText
import Telegraf.Conversions
import Telegraf.StatsdSeries
import Telegraf.GzipPipe
import Telegraf.PrometheusNames
import Telegraf.RotatingFiles
import Telegraf.Templates
import Telegraf.Modbus
import Telegraf.SnmpWalk
import Telegraf.Kinesis
